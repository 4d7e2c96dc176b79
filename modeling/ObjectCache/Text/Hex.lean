namespace ObjectCache.Text.Hex

def digit (n : UInt8) : Char :=
  Char.ofNat (if n < 10 then 48 + n.toNat else 87 + n.toNat)

def encode (bytes : ByteArray) : String :=
  String.ofList (bytes.data.toList.flatMap fun b => [digit (b / 16), digit (b % 16)])

end ObjectCache.Text.Hex
