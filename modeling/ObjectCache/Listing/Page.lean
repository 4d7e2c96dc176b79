import ObjectCache.Listing.Summary
import ObjectCache.Markup.Content
import ObjectCache.Text.Numeral

namespace ObjectCache.Listing

open Markup

structure ListedObject where
  key : String
  size : UInt64
  modified : String
  etag : String
deriving DecidableEq

def ListedObject.summary (o : ListedObject) : ObjectSummary :=
  .ofListed o.key o.size o.modified o.etag

structure Page where
  isTruncated : Bool
  token : Option String
  objects : List ListedObject
  commonPrefixes : List String
deriving DecidableEq

def Page.summaries (p : Page) : List ObjectSummary :=
  p.objects.map ListedObject.summary ++ p.commonPrefixes.map ObjectSummary.ofCommonPrefix

def Page.next? (p : Page) : Option String := if p.isTruncated then p.token else none

def string? (nodes : List Node) : Option String := (scalar? nodes).map String.ofList

def word? (nodes : List Node) : Option UInt64 := (string? nodes).bind Text.Numeral.word?

def trueWords : List String := ["true", "1", "True", "TRUE", "t", "Yes", "YES", "yes", "y"]

def falseWords : List String := ["false", "0", "False", "FALSE", "f", "No", "NO", "no", "n"]

def bool? (nodes : List Node) : Option Bool :=
  (string? nodes).bind fun s =>
    if trueWords.contains s then some true
    else if falseWords.contains s then some false
    else none

def once? {α : Type} (old : Option α) (new : Option α) : Option (Option α) :=
  if old.isSome then none else new.map some

structure ObjectDraft where
  key : Option String
  size : Option UInt64
  modified : Option String
  etag : Option String

def ObjectDraft.finish (d : ObjectDraft) : ListedObject :=
  ⟨d.key.getD "", d.size.getD 0, d.modified.getD "", d.etag.getD ""⟩

def ObjectDraft.read? (d : ObjectDraft) : List Item → Option ObjectDraft
  | [] => some d
  | .text _ :: rest => d.read? rest
  | .element tag nodes :: rest =>
      let name := String.ofList tag.localName
      if name = "Key" then
        (once? d.key (string? nodes)).bind fun v => { d with key := v }.read? rest
      else if name = "Size" then
        (once? d.size (word? nodes)).bind fun v => { d with size := v }.read? rest
      else if name = "LastModified" then
        (once? d.modified (string? nodes)).bind fun v => { d with modified := v }.read? rest
      else if name = "ETag" then
        (once? d.etag (string? nodes)).bind fun v => { d with etag := v }.read? rest
      else if isPassable nodes then d.read? rest
      else none

def wellFormedItems? (tag : Tag) (nodes : List Node) : Option (List Item) :=
  if tag.isWellFormed then items? nodes else none

def object? (tag : Tag) (nodes : List Node) : Option ListedObject := do
  let items ← wellFormedItems? tag nodes
  let draft ← ObjectDraft.read? ⟨none, none, none, none⟩ items
  return draft.finish

def readPrefix? (found : Option String) : List Item → Option String
  | [] => some (found.getD "")
  | .text _ :: rest => readPrefix? found rest
  | .element tag nodes :: rest =>
      if String.ofList tag.localName = "Prefix" then
        (once? found (string? nodes)).bind fun v => readPrefix? v rest
      else if isPassable nodes then readPrefix? found rest
      else none

def commonPrefix? (tag : Tag) (nodes : List Node) : Option String :=
  (wellFormedItems? tag nodes).bind (readPrefix? none)

structure PageDraft where
  isTruncated : Option Bool
  token : Option String
  objects : Option (List ListedObject)
  commonPrefixes : Option (List String)

def PageDraft.finish (d : PageDraft) : Page :=
  ⟨d.isTruncated.getD false, d.token, (d.objects.getD []).reverse,
    (d.commonPrefixes.getD []).reverse⟩

def PageDraft.read? (d : PageDraft) (current : Option (List Char)) : List Item → Option PageDraft
  | [] => some d
  | .text _ :: rest => if current.isSome then none else d.read? none rest
  | .element tag nodes :: rest =>
      let name := String.ofList tag.localName
      let goesOn := current == some tag.name
      if name = "Contents" then
        if goesOn ∨ d.objects.isNone then
          (object? tag nodes).bind fun o =>
            { d with objects := some (o :: d.objects.getD []) }.read? (some tag.name) rest
        else none
      else if name = "CommonPrefixes" then
        if goesOn ∨ d.commonPrefixes.isNone then
          (commonPrefix? tag nodes).bind fun p =>
            { d with commonPrefixes := some (p :: d.commonPrefixes.getD []) }.read?
              (some tag.name) rest
        else none
      else if name = "IsTruncated" then
        (once? d.isTruncated (bool? nodes)).bind fun v =>
          { d with isTruncated := v }.read? none rest
      else if name = "NextContinuationToken" then
        (once? d.token (string? nodes)).bind fun v => { d with token := v }.read? none rest
      else if isPassable nodes then d.read? none rest
      else none

def Page.ofDocument? (document : String) : Option Page := do
  let (tag, nodes) ← Node.ofDocument? document
  let items ← wellFormedItems? tag nodes
  let draft ← PageDraft.read? ⟨none, none, none, none⟩ none items
  return draft.finish

end ObjectCache.Listing
