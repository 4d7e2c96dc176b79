import ObjectCache.Markup.Node
import ObjectCache.Text.Numeral

namespace ObjectCache.Markup

def namedChar? (name : String) : Option Char :=
  if name = "lt" then some '<'
  else if name = "gt" then some '>'
  else if name = "amp" then some '&'
  else if name = "apos" then some '\''
  else if name = "quot" then some '"'
  else none

def codePoint? (n : Nat) : Option Char :=
  if n ≠ 0 ∧ n.isValidChar then some (Char.ofNat n) else none

def numberedChar? : List Char → Option Char
  | 'x' :: ds => if ds.length ≤ 6 then (Text.Numeral.valueFrom? 16 0 ds).bind codePoint? else none
  | ds => if ds.length ≤ 7 then (Text.Numeral.valueFrom? 10 0 ds).bind codePoint? else none

def reference? : List Char → Option Char
  | '#' :: ds => numberedChar? ds
  | name => namedChar? (String.ofList name)

def unescapeFrom? (name : Option (List Char)) : List Char → Option (List Char)
  | [] => if name.isNone then some [] else none
  | c :: cs =>
      match name with
      | none =>
          if c = '&' then unescapeFrom? (some []) cs else (unescapeFrom? none cs).map (c :: ·)
      | some before =>
          if c = '&' then none
          else if c = ';' then do
            let r ← reference? before.reverse
            return r :: (← unescapeFrom? none cs)
          else unescapeFrom? (some (c :: before)) cs

def unescape? (cs : List Char) : Option (List Char) := unescapeFrom? none cs

inductive Piece where
  | text (chars : List Char)
  | verbatim (chars : List Char)

namespace Piece

def isBlank : Piece → Bool
  | .text cs => cs.all isSpace
  | .verbatim _ => false

def trimmedStart : Piece → Piece
  | .text cs => .text (trimStart cs)
  | .verbatim cs => .verbatim cs

def trimmedEnd : Piece → Piece
  | .text cs => .text (trimEnd cs)
  | .verbatim cs => .verbatim cs

def chars? : Piece → Option (List Char)
  | .text cs => unescape? cs
  | .verbatim cs => some cs

end Piece

def onFirst {α : Type} (f : α → α) : List α → List α
  | [] => []
  | x :: xs => f x :: xs

def onLast {α : Type} (f : α → α) : List α → List α
  | [] => []
  | [x] => [f x]
  | x :: y :: xs => x :: onLast f (y :: xs)

def trimmedRun (run : List Piece) : List Piece :=
  onLast Piece.trimmedEnd (onFirst Piece.trimmedStart (run.dropWhile Piece.isBlank))

def runText? (run : List Piece) : Option (List Char) :=
  (run.mapM Piece.chars?).map List.flatten

inductive Item where
  | text (chars : List Char)
  | element (tag : Tag) (children : List Node)

def closeRun? (run : List Piece) (items : List Item) : Option (List Item) :=
  match trimmedRun run with
  | [] => some items
  | pieces => (runText? pieces).map fun t => .text t :: items

def itemsFrom? (run : List Piece) : List Node → Option (List Item)
  | [] => closeRun? run.reverse []
  | .text cs :: rest => itemsFrom? (.text cs :: run) rest
  | .verbatim cs :: rest => itemsFrom? (.verbatim cs :: run) rest
  | .declaration :: rest => (itemsFrom? [] rest).bind (closeRun? run.reverse)
  | .element tag children :: rest =>
      (itemsFrom? [] rest).bind fun items => closeRun? run.reverse (.element tag children :: items)

def items? (nodes : List Node) : Option (List Item) := itemsFrom? [] nodes

def isReadableRun (run : List Piece) : Bool := (runText? (trimmedRun run)).isSome

def isPassableFrom (run : List Piece) : List Node → Bool
  | .text cs :: rest => isPassableFrom (.text cs :: run) rest
  | .verbatim cs :: rest => isPassableFrom (.verbatim cs :: run) rest
  | .declaration :: rest =>
      if (trimmedRun run.reverse).isEmpty then isPassableFrom [] rest
      else isReadableRun run.reverse
  | _ => isReadableRun run.reverse

def isPassable (nodes : List Node) : Bool := isPassableFrom [] nodes

def scalar? (nodes : List Node) : Option (List Char) :=
  match items? nodes with
  | some [] => some []
  | some [.text cs] => some cs
  | _ => none

def afterValue? (cs : List Char) : Option (List Char) :=
  match trimStart cs with
  | [] => none
  | q :: rest =>
      if q = '"' ∨ q = '\'' then
        match rest.dropWhile (· != q) with
        | [] => none
        | _ :: rest => some rest
      else none

def attributeNames? : Nat → List Char → Option (List (List Char))
  | 0, _ => none
  | fuel + 1, cs =>
      match trimStart cs with
      | [] => some []
      | c :: rest =>
          let inName := fun c => c != '=' && !isSpace c
          match trimStart (rest.dropWhile inName) with
          | '=' :: rest' => do
              let rest' ← afterValue? rest'
              let names ← attributeNames? fuel rest'
              return (c :: rest.takeWhile inName) :: names
          | _ => none

def Tag.isWellFormed (t : Tag) : Bool :=
  match attributeNames? (t.attributes.length + 1) t.attributes with
  | some names => names.Nodup
  | none => false

end ObjectCache.Markup
