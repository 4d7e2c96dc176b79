import ObjectCache.Cache.Metadata
import ObjectCache.Client.Reading
import ObjectCache.Signing.Signer
import ObjectCache.Store.Call

namespace ObjectCache

open Time

structure Client where
  blocks : BlockCache
  metadata : MetadataCache
  signer : Signer
  keys : Signing.KeyCache

namespace Client

def new (signer : Signer) (blocks : BlockCache) (metadata : MetadataCache) : Client :=
  ⟨blocks, metadata, signer, .empty⟩

inductive Operation where
  | head (object : ObjectName)
  | read (object : ObjectName) (offset length : UInt64)
  | list (name : ListingName)
  | write (object : ObjectName) (data : ByteArray)
  | delete (object : ObjectName)

/-- How an operation ends; `overflow` means that an entry would expire after the last instant, or that
a range is longer than memory can be asked for. -/
inductive Answer where
  | size (n : UInt64)
  | bytes (data : ByteArray)
  | entries (objects : List ObjectSummary)
  | done
  | failed (cause : StoreError)
  | overflow

inductive Purpose where
  | size
  | read (offset length : UInt64)
deriving DecidableEq

inductive Pending where
  | head (object : ObjectName) (generation : Nat) (purpose : Purpose)
  | block (reading : Reading) (left : Nat) (generation : Nat)
  | list (name : ListingName) (generation : Nat)
  | write (object : ObjectName) (data : ByteArray)
  | delete (object : ObjectName)

def Pending.call : Pending → StoreCall
  | head o _ _ => .head o
  | block r _ _ => .get r.object r.blockStart r.blockLength
  | list name _ => .list name
  | write o data => .put o data
  | delete o => .delete o

inductive Progress where
  | finished (answer : Answer)
  | waiting (pending : Pending)

structure Turn where
  client : Client
  progress : Progress
  events : List Event

def invalidate (c : Client) (object : ObjectName) : Client × List Event :=
  let (blocks, blockEvents) := c.blocks.invalidate object
  let (metadata, metadataEvents) := c.metadata.invalidate object
  ({ c with blocks, metadata }, blockEvents ++ metadataEvents)

def finishRead (c : Client) (r : Reading) : Turn := ⟨c, .finished (.bytes r.out), []⟩

def awaitBlock (c : Client) (r : Reading) (left : Nat) : Turn :=
  ⟨c, .waiting (.block r left (c.blocks.generation r.object)), []⟩

def lookUp (c : Client) (r : Reading) : Option ByteArray × Client :=
  let (block, blocks) := c.blocks.get r.key
  (block, { c with blocks })

def useBlock (c : Client) (r : Reading) (block : ByteArray) (go : Reading → Turn) : Turn :=
  match r.next? block with
  | none => c.finishRead r
  | some r => go r

def readBlock (c : Client) (r : Reading) (left : Nat) (go : Client → Reading → Turn) : Turn :=
  match c.lookUp r with
  | (none, c) => c.awaitBlock r left
  | (some block, c) => c.useBlock r block (go c)

def readOn (c : Client) (r : Reading) : (left : Nat) → Turn
  | 0 => c.readBlock r 0 finishRead
  | left + 1 => c.readBlock r (left + 1) fun c r => c.readOn r left

def readAfter (c : Client) (r : Reading) (block : ByteArray) : (left : Nat) → Turn
  | 0 => c.useBlock r block c.finishRead
  | left + 1 => c.useBlock r block fun r => c.readOn r left

def withSize (c : Client) (object : ObjectName) (size : UInt64) : Purpose → Turn
  | .size => ⟨c, .finished (.size size), []⟩
  | .read offset length =>
      match Reading.start? object size offset length with
      | none => ⟨c, .finished (.bytes .empty), []⟩
      | some (r, left) => if r.fits then readOn c r left else ⟨c, .finished .overflow, []⟩

def startHead (c : Client) (now : Millis) (object : ObjectName) (purpose : Purpose) : Turn :=
  match c.metadata.getHead now object with
  | (some size, metadata) => withSize { c with metadata } object size purpose
  | (none, metadata) =>
      ⟨{ c with metadata },
        .waiting (.head object (metadata.generation object.bucket) purpose), []⟩

def start (c : Client) (now : Millis) : Operation → Turn
  | .head o => c.startHead now o .size
  | .read o offset length => c.startHead now o (.read offset length)
  | .list name =>
      match c.metadata.getListing now name with
      | (some objects, metadata) => ⟨{ c with metadata }, .finished (.entries objects), []⟩
      | (none, metadata) =>
          ⟨{ c with metadata }, .waiting (.list name (metadata.generation name.bucket)), []⟩
  | .write o data => ⟨c, .waiting (.write o data), []⟩
  | .delete o => ⟨c, .waiting (.delete o), []⟩

def afterMutation (c : Client) (object : ObjectName) (result : Except StoreError Unit) : Turn :=
  let (c, events) := c.invalidate object
  match result with
  | .ok _ => ⟨c, .finished .done, events⟩
  | .error e => ⟨c, .finished (.failed e), events⟩

def afterHead (c : Client) (now : Millis) (object : ObjectName) (generation : Nat)
    (purpose : Purpose) : Except StoreError UInt64 → Turn
  | .error e => ⟨c, .finished (.failed e), []⟩
  | .ok size =>
      match c.metadata.putHeadIfCurrent now object size generation with
      | none => ⟨c, .finished .overflow, []⟩
      | some (_, metadata) => withSize { c with metadata } object size purpose

def afterBlock (c : Client) (r : Reading) (left generation : Nat) :
    Except StoreError ByteArray → Turn
  | .error e => ⟨c, .finished (.failed e), []⟩
  | .ok block =>
      let (_, blocks, events) := c.blocks.putIfCurrent r.key block generation
      let turn := { c with blocks }.readAfter r block left
      { turn with events := events ++ turn.events }

def afterList (c : Client) (now : Millis) (name : ListingName) (generation : Nat) :
    Except StoreError (List ObjectSummary) → Turn
  | .error e => ⟨c, .finished (.failed e), []⟩
  | .ok objects =>
      match c.metadata.putListingIfCurrent now name objects generation with
      | none => ⟨c, .finished .overflow, []⟩
      | some (_, metadata) => ⟨{ c with metadata }, .finished (.entries objects), []⟩

def resume (c : Client) (now : Millis) : (p : Pending) → p.call.Result → Turn
  | .head o generation purpose, result => c.afterHead now o generation purpose result
  | .block r left generation, result => c.afterBlock r left generation result
  | .list name generation, result => c.afterList now name generation result
  | .write o _, result => c.afterMutation o result
  | .delete o, result => c.afterMutation o result

def presign (c : Client) (method : Method) (object : ObjectName) (expiry : UInt64)
    (now : Instant) : Except SigningError String × Client :=
  let (result, keys) := c.signer.presignAt method object.bucket object.key expiry now c.keys
  (result, { c with keys })

def metrics (c : Client) : List Event := [c.blocks.metrics, c.metadata.metrics]

end Client

end ObjectCache
