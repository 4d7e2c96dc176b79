import ObjectCache.Text.Pieces
import ObjectCache.Text.Token
import ObjectCache.Url.Escape

namespace ObjectCache.Url.Path

abbrev Segment := List Char

def isSingleDot (s : Segment) : Bool :=
  ["." , "%2e", "%2E"].any fun d => d.toList == s

def isDoubleDot (s : Segment) : Bool :=
  ["..", "%2e.", "%2E.", ".%2e", ".%2E", "%2e%2e", "%2e%2E", "%2E%2e", "%2E%2E"].any fun d =>
    d.toList == s

def isDriveMark (c m : Char) : Bool := Text.isLetter c && (m == ':' || m == '|')

def isDrive : Segment → Bool
  | [c, m] => isDriveMark c m
  | _ => false

def startsWithDrive : Segment → Bool
  | [c, m] => isDriveMark c m
  | c :: m :: '\\' :: _ => isDriveMark c m
  | _ => false

def up : List Segment → List Segment
  | [] => []
  | s :: done => if startsWithDrive s then s :: done else done

def resolveFrom (done : List Segment) : List Segment → List Segment
  | [] => done.reverse
  | s :: rest =>
      if isDoubleDot s then resolveFrom (if rest.isEmpty then [] :: up done else up done) rest
      else if isSingleDot s then resolveFrom (if rest.isEmpty then [] :: done else done) rest
      else resolveFrom (s :: done) rest

def resolve (segments : List Segment) : List Segment := resolveFrom [] segments

def chars (segments : List Segment) : List Char := segments.flatMap ('/' :: ·)

def isSeparator (special : Bool) (c : Char) : Bool := c == '/' || (special && c == '\\')

def segments (special : Bool) (cs : List Char) : List Segment :=
  resolve ((Text.pieces (isSeparator special) cs).map (Text.Percent.encode pathKeeps))

def afterSeparator (special : Bool) : List Char → List Char
  | [] => []
  | c :: cs => if isSeparator special c then cs else c :: cs

def isBreak (c : Char) : Bool := c == '\t' || c == '\n' || c == '\r'

def withoutBreaks (cs : List Char) : List Char := cs.filter (!isBreak ·)

def segment (piece : List Char) : Segment := Text.Percent.encode pathKeeps (withoutBreaks piece)

def driveAndRest? (piece : List Char) : Option (Segment × Segment) :=
  match piece.dropWhile isBreak with
  | [] => none
  | c :: after =>
      match after.dropWhile isBreak with
      | ':' :: b :: rest =>
          if Text.isLetter c && isBreak b && !(segment rest).isEmpty then
            some ([c, ':'], segment rest)
          else none
      | _ => none

def firstOfFile (piece : List Char) : List Segment × Bool :=
  match driveAndRest? piece with
  | some (drive, rest) => ([rest, drive], false)
  | none =>
      match segment piece with
      | [c, m] => if isDriveMark c m then ([[c, ':']], true) else ([[c, m]], false)
      | s => ([s], false)

def resolveFile (done : List Segment) (hasDrive : Bool) :
    List (List Char) → List Segment × Bool
  | [] => (done.reverse, hasDrive)
  | piece :: rest =>
      let s := segment piece
      if isDoubleDot s then
        resolveFile (if rest.isEmpty then [] :: up done else up done) hasDrive rest
      else if isSingleDot s then
        resolveFile (if rest.isEmpty then [] :: done else done) hasDrive rest
      else if done.isEmpty then
        let (front, isDrive) := firstOfFile piece
        resolveFile front (hasDrive || isDrive) rest
      else resolveFile (s :: done) hasDrive rest

def withoutEmptyStart (segments : List Segment) : List Segment :=
  match segments.dropWhile (·.isEmpty) with
  | [] => [[]]
  | rest => rest

def fileSegments (cs : List Char) : List Segment × Bool :=
  let (segments, hasDrive) := resolveFile [] false (Text.pieces (isSeparator true) cs)
  (withoutEmptyStart segments, hasDrive)

end ObjectCache.Url.Path
