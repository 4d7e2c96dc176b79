import ObjectCache.Digest.Sha256

namespace ObjectCache.Digest

def hmacBlock (key : ByteArray) : List UInt8 :=
  let short := if key.size > 64 then sha256 key else key
  short.data.toList ++ List.replicate (64 - short.size) 0

def hmacSha256 (key message : ByteArray) : ByteArray :=
  let block := hmacBlock key
  let inner : ByteArray := ⟨(block.map (· ^^^ 0x36)).toArray⟩
  let outer : ByteArray := ⟨(block.map (· ^^^ 0x5c)).toArray⟩
  sha256 (outer ++ sha256 (inner ++ message))

end ObjectCache.Digest
