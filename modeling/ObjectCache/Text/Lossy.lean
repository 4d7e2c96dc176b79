namespace ObjectCache.Text

def continuation? (lead : UInt8) : Option (Nat × UInt8 × UInt8) :=
  if lead < 0xC2 then none
  else if lead < 0xE0 then some (1, 0x80, 0xBF)
  else if lead = 0xE0 then some (2, 0xA0, 0xBF)
  else if lead = 0xED then some (2, 0x80, 0x9F)
  else if lead < 0xF0 then some (2, 0x80, 0xBF)
  else if lead = 0xF0 then some (3, 0x90, 0xBF)
  else if lead < 0xF4 then some (3, 0x80, 0xBF)
  else if lead = 0xF4 then some (3, 0x80, 0x8F)
  else none

def continuationRun : (n : Nat) → (lo hi : UInt8) → List UInt8 → List UInt8
  | 0, _, _, _ => []
  | _ + 1, _, _, [] => []
  | n + 1, lo, hi, b :: bs =>
      if lo ≤ b ∧ b ≤ hi then b :: continuationRun n 0x80 0xBF bs else []

def scalar (lead : UInt8) (rest : List UInt8) : Char :=
  let top := match rest.length with
    | 1 => lead.toNat % 32
    | 2 => lead.toNat % 16
    | _ => lead.toNat % 8
  Char.ofNat (rest.foldl (fun acc b => 64 * acc + b.toNat % 64) top)

def lossyChars : (fuel : Nat) → List UInt8 → List Char
  | _, [] => []
  | 0, _ => []
  | fuel + 1, b :: bs =>
      if b < 0x80 then Char.ofNat b.toNat :: lossyChars fuel bs
      else
        match continuation? b with
        | none => '\uFFFD' :: lossyChars fuel bs
        | some (n, lo, hi) =>
            let run := continuationRun n lo hi bs
            (if run.length = n then scalar b run else '\uFFFD') ::
              lossyChars fuel (bs.drop run.length)

def lossy (bytes : ByteArray) : String :=
  String.ofList (lossyChars bytes.size bytes.data.toList)

end ObjectCache.Text
