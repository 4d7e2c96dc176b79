namespace ObjectCache.Digest

namespace Sha256

def constants : Array UInt32 := #[
  0x428a2f98, 0x71374491, 0xb5c0fbcf, 0xe9b5dba5, 0x3956c25b, 0x59f111f1, 0x923f82a4, 0xab1c5ed5,
  0xd807aa98, 0x12835b01, 0x243185be, 0x550c7dc3, 0x72be5d74, 0x80deb1fe, 0x9bdc06a7, 0xc19bf174,
  0xe49b69c1, 0xefbe4786, 0x0fc19dc6, 0x240ca1cc, 0x2de92c6f, 0x4a7484aa, 0x5cb0a9dc, 0x76f988da,
  0x983e5152, 0xa831c66d, 0xb00327c8, 0xbf597fc7, 0xc6e00bf3, 0xd5a79147, 0x06ca6351, 0x14292967,
  0x27b70a85, 0x2e1b2138, 0x4d2c6dfc, 0x53380d13, 0x650a7354, 0x766a0abb, 0x81c2c92e, 0x92722c85,
  0xa2bfe8a1, 0xa81a664b, 0xc24b8b70, 0xc76c51a3, 0xd192e819, 0xd6990624, 0xf40e3585, 0x106aa070,
  0x19a4c116, 0x1e376c08, 0x2748774c, 0x34b0bcb5, 0x391c0cb3, 0x4ed8aa4a, 0x5b9cca4f, 0x682e6ff3,
  0x748f82ee, 0x78a5636f, 0x84c87814, 0x8cc70208, 0x90befffa, 0xa4506ceb, 0xbef9a3f7, 0xc67178f2]

structure State where
  a : UInt32
  b : UInt32
  c : UInt32
  d : UInt32
  e : UInt32
  f : UInt32
  g : UInt32
  h : UInt32
deriving DecidableEq, Repr

def State.initial : State :=
  ⟨0x6a09e667, 0xbb67ae85, 0x3c6ef372, 0xa54ff53a, 0x510e527f, 0x9b05688c, 0x1f83d9ab, 0x5be0cd19⟩

def State.add (s t : State) : State :=
  ⟨s.a + t.a, s.b + t.b, s.c + t.c, s.d + t.d, s.e + t.e, s.f + t.f, s.g + t.g, s.h + t.h⟩

@[inline] def rotr (x n : UInt32) : UInt32 := (x >>> n) ||| (x <<< (32 - n))

@[inline] def byteAt (bytes : ByteArray) (i : Nat) : UInt32 :=
  if h : i < bytes.size then bytes[i].toUInt32 else 0

def wordAt (bytes : ByteArray) (i : Nat) : UInt32 :=
  (byteAt bytes i <<< 24) ||| (byteAt bytes (i + 1) <<< 16) ||| (byteAt bytes (i + 2) <<< 8) |||
    byteAt bytes (i + 3)

def loadWords (bytes : ByteArray) (start : Nat) : Nat → Array UInt32 → Array UInt32
  | 0, ws => ws
  | n + 1, ws => loadWords bytes (start + 4) n (ws.push (wordAt bytes start))

def extendWords : Nat → Array UInt32 → Array UInt32
  | 0, ws => ws
  | n + 1, ws =>
      let t := ws.size
      let x := ws.getD (t - 15) 0
      let y := ws.getD (t - 2) 0
      let s0 := rotr x 7 ^^^ rotr x 18 ^^^ (x >>> 3)
      let s1 := rotr y 17 ^^^ rotr y 19 ^^^ (y >>> 10)
      extendWords n (ws.push (ws.getD (t - 16) 0 + s0 + ws.getD (t - 7) 0 + s1))

def schedule (bytes : ByteArray) (start : Nat) : Array UInt32 :=
  extendWords 48 (loadWords bytes start 16 (Array.mkEmpty 64))

def rounds (ws : Array UInt32) : Nat → Nat → UInt32 → UInt32 → UInt32 → UInt32 →
    UInt32 → UInt32 → UInt32 → UInt32 → State
  | 0, _, a, b, c, d, e, f, g, h => ⟨a, b, c, d, e, f, g, h⟩
  | n + 1, t, a, b, c, d, e, f, g, h =>
      let s1 := rotr e 6 ^^^ rotr e 11 ^^^ rotr e 25
      let ch := (e &&& f) ^^^ (~~~e &&& g)
      let t1 := h + s1 + ch + constants.getD t 0 + ws.getD t 0
      let s0 := rotr a 2 ^^^ rotr a 13 ^^^ rotr a 22
      let maj := (a &&& b) ^^^ (a &&& c) ^^^ (b &&& c)
      rounds ws n (t + 1) (t1 + s0 + maj) a b c (d + t1) e f g

def State.absorb (s : State) (bytes : ByteArray) (start : Nat) : State :=
  s.add (rounds (schedule bytes start) 64 0 s.a s.b s.c s.d s.e s.f s.g s.h)

def absorbAll (bytes : ByteArray) : Nat → Nat → State → State
  | 0, _, s => s
  | n + 1, start, s => absorbAll bytes n (start + 64) (s.absorb bytes start)

def padding (size : Nat) : ByteArray :=
  let zeros := (119 - size % 64) % 64
  let bits := 8 * size
  let length : List UInt8 := [56, 48, 40, 32, 24, 16, 8, 0].map fun shift => (bits >>> shift).toUInt8
  ⟨(0x80 :: (List.replicate zeros 0 ++ length)).toArray⟩

def State.bytes (s : State) : ByteArray :=
  let words : List UInt32 := [s.a, s.b, s.c, s.d, s.e, s.f, s.g, s.h]
  ⟨(words.flatMap fun (w : UInt32) =>
    [(w >>> 24).toUInt8, (w >>> 16).toUInt8, (w >>> 8).toUInt8, w.toUInt8]).toArray⟩

end Sha256

open Sha256 in
def sha256 (message : ByteArray) : ByteArray :=
  let padded := message ++ padding message.size
  (absorbAll padded (padded.size / 64) 0 State.initial).bytes

end ObjectCache.Digest
