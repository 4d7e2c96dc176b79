import ObjectCache.Text.Numeral
import ObjectCache.Time.Civil

namespace ObjectCache.Time

structure Timestamp where
  seconds : Int
  nanos : Nat
deriving DecidableEq, Repr

namespace Rfc3339

open Text.Numeral

def digits? : Nat → List Char → Option (Nat × List Char)
  | n, cs =>
      let run := cs.take n
      if run.length = n then (natural? run).map fun v => (v, cs.drop n) else none

def char? (ok : Char → Bool) : List Char → Option (List Char)
  | c :: cs => if ok c then some cs else none
  | [] => none

def fraction? : List Char → Option (Nat × List Char)
  | '.' :: cs =>
      let run := cs.takeWhile isDigit
      let kept := run.take 9
      (natural? kept).map fun v => (v * Nat.pow 10 (9 - kept.length), cs.drop run.length)
  | cs => some (0, cs)

def offset? : List Char → Option (Int × List Char)
  | [] => none
  | c :: cs =>
      if c == 'Z' || c == 'z' then some (0, cs)
      else if c == '+' || c == '-' || c == '−' then do
        let (hours, cs) ← digits? 2 cs
        let cs ← char? (· == ':') cs
        let (minutes, cs) ← digits? 2 cs
        if hours < 24 ∧ minutes < 60 then
          let size : Int := hours * 3600 + minutes * 60
          some (if c == '+' then size else -size, cs)
        else none
      else none

def parse? (s : String) : Option Timestamp := do
  let (year, cs) ← digits? 4 s.toList
  let cs ← char? (· == '-') cs
  let (month, cs) ← digits? 2 cs
  let cs ← char? (· == '-') cs
  let (day, cs) ← digits? 2 cs
  let cs ← char? (fun c => c == 'T' || c == 't' || c == ' ') cs
  let (hour, cs) ← digits? 2 cs
  let cs ← char? (· == ':') cs
  let (minute, cs) ← digits? 2 cs
  let cs ← char? (· == ':') cs
  let (second, cs) ← digits? 2 cs
  let (nanos, cs) ← fraction? cs
  let (offset, cs) ← offset? cs
  let date : Date := ⟨year, month, day⟩
  if cs.isEmpty && date.isValid && hour < 24 && minute < 60 && second ≤ 60 then
    let clock : Int := hour * 3600 + minute * 60 + (min second 59 : Nat)
    some ⟨date.toDays * 86400 + clock - offset,
      if second = 60 then 1000000000 + nanos else nanos⟩
  else none

end Rfc3339

end ObjectCache.Time
