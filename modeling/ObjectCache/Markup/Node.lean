import ObjectCache.Markup.Token

namespace ObjectCache.Markup

structure Tag where
  name : List Char
  attributes : List Char

def Tag.ofContent (cs : List Char) : Tag :=
  ⟨cs.takeWhile (!isSpace ·), cs.dropWhile (!isSpace ·)⟩

def Tag.localName (t : Tag) : List Char :=
  match t.name.dropWhile (· != ':') with
  | [] => t.name
  | _ :: rest => rest

inductive Node where
  | text (chars : List Char)
  | verbatim (chars : List Char)
  | declaration
  | element (tag : Tag) (children : List Node)

namespace Node

def children? : Nat → List Char → List Char → Option (List Node × List Char)
  | 0, _, _ => none
  | fuel + 1, name, cs =>
      match Token.next? cs with
      | none => none
      | some (token, rest) =>
          let before := fun node => (children? fuel name rest).map fun (ns, rest) =>
            (node :: ns, rest)
          match token with
          | .skipped => children? fuel name rest
          | .text t => before (.text t)
          | .verbatim t => before (.verbatim t)
          | .declaration => before .declaration
          | .emptyTag t => before (.element (.ofContent t) [])
          | .closeTag n => if n = name then some ([], rest) else none
          | .openTag t => do
              let tag := Tag.ofContent t
              let (inner, rest) ← children? fuel tag.name rest
              let (ns, rest) ← children? fuel name rest
              return (.element tag inner :: ns, rest)

def root? : Nat → List Char → Option (Tag × List Node)
  | 0, _ => none
  | fuel + 1, cs =>
      match Token.next? cs with
      | none => none
      | some (token, rest) =>
          match token with
          | .skipped | .declaration => root? fuel rest
          | .text t => if t.all isSpace then root? fuel rest else none
          | .emptyTag t => some (.ofContent t, [])
          | .openTag t => do
              let tag := Tag.ofContent t
              let (inner, _) ← children? fuel tag.name rest
              return (tag, inner)
          | .verbatim _ | .closeTag _ => none

def withoutMark : List Char → List Char
  | '\uFEFF' :: cs => cs
  | cs => cs

def ofDocument? (document : String) : Option (Tag × List Node) :=
  let cs := withoutMark document.toList
  root? (cs.length + 1) cs

end Node

end ObjectCache.Markup
