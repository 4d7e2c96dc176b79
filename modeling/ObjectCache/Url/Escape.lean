import ObjectCache.Text.Percent

namespace ObjectCache.Url

def keepsAllBut (others : String) (c : Char) : Bool :=
  32 ≤ c.toNat && c.toNat ≤ 126 && !others.toList.contains c

def opaquePathKeeps : Char → Bool := keepsAllBut ""

def fragmentKeeps : Char → Bool := keepsAllBut " \"<>`"

def queryKeeps (special : Bool) : Char → Bool :=
  keepsAllBut (if special then " \"#<>'" else " \"#<>")

def pathKeeps : Char → Bool := keepsAllBut " \"#<>?`\x7b\x7d"

def userKeeps : Char → Bool := keepsAllBut " \"#<>?`\x7b\x7d/:;=@[\\]^|"

end ObjectCache.Url
