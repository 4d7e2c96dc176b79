import ObjectCache.Text.Numeral

namespace ObjectCache.Text.Fixed

def roundDiv (num den : Nat) : Nat :=
  let q := num / den
  let twice := 2 * (num % den)
  if twice < den ∨ (twice = den ∧ q % 2 = 0) then q else q + 1

theorem roundDiv_near (num den : Nat) (h : 0 < den) :
    2 * num ≤ (2 * roundDiv num den + 1) * den ∧ 2 * roundDiv num den * den ≤ 2 * num + den := by
  have hdiv := Nat.div_add_mod num den
  have hmod := Nat.mod_lt num h
  simp only [roundDiv]
  generalize num / den = q at *
  generalize num % den = r at *
  subst hdiv
  have hcomm := Nat.mul_comm q den
  split <;> constructor <;>
    simp only [Nat.add_mul, Nat.mul_add, Nat.one_mul, Nat.mul_one, Nat.mul_assoc, hcomm] <;> omega

def withPoint (places n : Nat) : List Char :=
  let digits := Numeral.padded (places + 1) n
  digits.take (digits.length - places) ++ '.' :: digits.drop (digits.length - places)

def hiddenBit : Nat := 4503599627370496

def mantissaAndExponent (x : Float) : Nat × Nat :=
  let bits := x.toBits.toNat
  let exponent := bits / hiddenBit % 2048
  let fraction := bits % hiddenBit
  if exponent = 0 then (fraction, 1) else (hiddenBit + fraction, exponent)

def ofFloat (places : Nat) (x : Float) : String :=
  let (mantissa, exponent) := mantissaAndExponent x
  String.ofList (withPoint places
    (roundDiv (mantissa * Nat.pow 2 exponent * Nat.pow 10 places) (Nat.pow 2 1075)))

end ObjectCache.Text.Fixed
