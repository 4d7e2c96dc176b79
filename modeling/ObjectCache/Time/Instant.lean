import ObjectCache.Text.Numeral
import ObjectCache.Time.Civil

namespace ObjectCache.Time

def earliest : Int := -8334601228800
def latest : Int := 8210266876799

/-- Seconds since 1970-01-01T00:00:00Z, within the years that dates can be written for. -/
structure Instant where
  seconds : Int
  inRange : earliest ≤ seconds ∧ seconds ≤ latest
deriving DecidableEq

namespace Instant

def ofSeconds? (s : Int) : Option Instant :=
  if h : earliest ≤ s ∧ s ≤ latest then some ⟨s, h⟩ else none

def epoch : Instant := ⟨0, by decide⟩

def date (t : Instant) : Date := Date.ofDays (t.seconds.fdiv 86400)

def secondOfDay (t : Instant) : Nat := (t.seconds.fmod 86400).toNat

def yearText (year : Int) : List Char :=
  if 0 ≤ year ∧ year < 10000 then Text.Numeral.padded 4 year.toNat
  else (if year < 0 then '-' else '+') :: Text.Numeral.padded 4 year.natAbs

def dateChars (t : Instant) : List Char :=
  yearText t.date.year ++ Text.Numeral.padded 2 t.date.month ++ Text.Numeral.padded 2 t.date.day

def clockChars (t : Instant) : List Char :=
  Text.Numeral.padded 2 (t.secondOfDay / 3600) ++
    Text.Numeral.padded 2 (t.secondOfDay / 60 % 60) ++ Text.Numeral.padded 2 (t.secondOfDay % 60)

def dateText (t : Instant) : String := String.ofList t.dateChars

def stampText (t : Instant) : String :=
  String.ofList (t.dateChars ++ 'T' :: t.clockChars ++ ['Z'])

end Instant

/-- What the clock shows at each reading, by the number of readings before it. An instant is a clock
that stands still. -/
abbrev Clock := Nat → Instant

instance : Coe Instant Clock := ⟨fun t _ => t⟩

end ObjectCache.Time
