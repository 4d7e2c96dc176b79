namespace ObjectCache.Text

def isLetter (c : Char) : Bool :=
  (65 ≤ c.toNat && c.toNat ≤ 90) || (97 ≤ c.toNat && c.toNat ≤ 122)

def isTokenChar (c : Char) : Bool :=
  isLetter c || (48 ≤ c.toNat && c.toNat ≤ 57) || "!#$%&'*+-.^_`|~".toList.contains c

def isToken (s : String) : Bool :=
  !s.toList.isEmpty && s.toList.all isTokenChar

def lowerChar (c : Char) : Char :=
  if 65 ≤ c.toNat ∧ c.toNat ≤ 90 then Char.ofNat (c.toNat + 32) else c

def lower (s : String) : String := String.ofList (s.toList.map lowerChar)

end ObjectCache.Text
