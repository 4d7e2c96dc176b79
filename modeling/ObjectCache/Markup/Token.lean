import ObjectCache.Text.Token

namespace ObjectCache.Markup

inductive Token where
  | text (chars : List Char)
  | verbatim (chars : List Char)
  | declaration
  | openTag (chars : List Char)
  | emptyTag (chars : List Char)
  | closeTag (name : List Char)
  | skipped

def isSpace (c : Char) : Bool := c == ' ' || c == '\t' || c == '\n' || c == '\r'

def trimStart (cs : List Char) : List Char := cs.dropWhile isSpace

def trimEnd (cs : List Char) : List Char := (cs.reverse.dropWhile isSpace).reverse

namespace Token

def upTo? (ok : List Char → Bool) (before : List Char) : List Char → Option (List Char × List Char)
  | [] => none
  | '>' :: rest => if ok before then some (before.reverse, rest) else upTo? ok ('>' :: before) rest
  | c :: rest => upTo? ok (c :: before) rest

def endsComment : List Char → Bool
  | '-' :: '-' :: before => 2 < before.length
  | _ => false

def endsVerbatim : List Char → Bool
  | ']' :: ']' :: _ => true
  | _ => false

def endsDeclaration (before : List Char) : Bool := before.count '<' == before.count '>'

def startsWithText (s : String) (cs : List Char) : Bool :=
  (cs.take s.length).map Text.lowerChar == s.toList.map Text.lowerChar

def comment? (cs : List Char) : Option (Token × List Char) := do
  let (inner, rest) ← upTo? endsComment [] cs
  if startsWithText "!--" inner then return (.skipped, rest) else none

def verbatim? (cs : List Char) : Option (Token × List Char) := do
  let (inner, rest) ← upTo? endsVerbatim [] cs
  if startsWithText "![CDATA[" inner then
    return (.verbatim ((inner.drop 8).take (inner.length - 10)), rest)
  else none

def declaration? (cs : List Char) : Option (Token × List Char) := do
  let (inner, rest) ← upTo? endsDeclaration [] cs
  if startsWithText "!DOCTYPE" inner ∧ (trimStart (inner.drop 8)).isEmpty = false then
    return (.declaration, rest)
  else none

def isClose (c : Char) : Bool := c == '>'

def instruction? (cs : List Char) : Option (Token × List Char) :=
  let inner := cs.takeWhile (!isClose ·)
  if 2 < inner.length ∧ inner.getLast? = some '?' then
    some (.skipped, (cs.drop inner.length).drop 1)
  else none

def readCloseTag (cs : List Char) : Token × List Char :=
  let inner := cs.takeWhile (!isClose ·)
  let name := trimEnd inner
  (.closeTag (if name.isEmpty then inner else name), (cs.drop inner.length).drop 1)

def tagContent? (quote : Option Char) : List Char → Option (List Char × List Char)
  | [] => none
  | c :: rest =>
      match quote with
      | some q => (tagContent? (if c = q then none else some q) rest).map fun (cs, rest) =>
          (c :: cs, rest)
      | none =>
          if c = '>' then some ([], rest)
          else
            (tagContent? (if c = '"' ∨ c = '\'' then some c else none) rest).map fun (cs, rest) =>
              (c :: cs, rest)

def tag? (cs : List Char) : Option (Token × List Char) :=
  (tagContent? none cs).map fun (inner, rest) =>
    if inner.getLast? = some '/' then (.emptyTag inner.dropLast, rest) else (.openTag inner, rest)

def markup? : List Char → Option (Token × List Char)
  | [] => none
  | '/' :: cs => some (readCloseTag cs)
  | '?' :: cs => instruction? ('?' :: cs)
  | '!' :: '[' :: cs => verbatim? ('!' :: '[' :: cs)
  | '!' :: '-' :: cs => comment? ('!' :: '-' :: cs)
  | '!' :: c :: cs => if c = 'D' ∨ c = 'd' then declaration? ('!' :: c :: cs) else none
  | ['!'] => none
  | cs => tag? cs

def next? : List Char → Option (Token × List Char)
  | [] => none
  | '<' :: cs => markup? cs
  | cs =>
      let text := cs.takeWhile (· != '<')
      some (.text text, cs.drop text.length)

end Token

end ObjectCache.Markup
