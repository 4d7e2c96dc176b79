namespace ObjectCache.Text.Numeral

def isDigit (c : Char) : Bool := 48 ≤ c.toNat && c.toNat ≤ 57

def digitValue? (c : Char) : Option Nat :=
  let n := c.toNat
  if 48 ≤ n ∧ n ≤ 57 then some (n - 48)
  else if 65 ≤ n ∧ n ≤ 70 then some (n - 55)
  else if 97 ≤ n ∧ n ≤ 102 then some (n - 87)
  else none

def valueFrom? (base acc : Nat) : List Char → Option Nat
  | [] => some acc
  | c :: cs =>
      match digitValue? c with
      | some d => if d < base then valueFrom? base (base * acc + d) cs else none
      | none => none

def natural? : List Char → Option Nat
  | [] => none
  | cs => valueFrom? 10 0 cs

def word? (s : String) : Option UInt64 :=
  let digits := match s.toList with
    | '+' :: rest => rest
    | cs => cs
  match natural? digits with
  | some n => if n < UInt64.size then some (UInt64.ofNat n) else none
  | none => none

def padded (width n : Nat) : List Char :=
  let digits := Nat.toDigits 10 n
  List.replicate (width - digits.length) '0' ++ digits

end ObjectCache.Text.Numeral
