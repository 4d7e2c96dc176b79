import ObjectCache.Client.Run
import ObjectCache.Store.Memory

namespace ObjectCache

open Time

namespace Script

inductive Action where
  | invalidate (object : ObjectName)
  | put (object : ObjectName) (data : ByteArray)
  | remove (object : ObjectName)
  | reportSize (object : ObjectName) (size : Option UInt64)
  | fail (kind : StoreCall.Kind) (cause : StoreError)
  | hook (kind : StoreCall.Kind) (actions : List Action)
deriving Inhabited

end Script

structure ScriptedStore where
  store : MemoryStore
  failures : List (StoreCall.Kind × StoreError)
  hooks : List (StoreCall.Kind × List Script.Action)
  calls : List StoreCall

namespace ScriptedStore

open Script

def empty : ScriptedStore := ⟨.empty, [], [], []⟩

def takeFirst {α : Type} (kind : StoreCall.Kind) :
    List (StoreCall.Kind × α) → Option α × List (StoreCall.Kind × α)
  | [] => (none, [])
  | e :: rest =>
      if e.1 = kind then (some e.2, rest)
      else
        let (found, rest) := takeFirst kind rest
        (found, e :: rest)

def act (s : ScriptedStore) (c : Client) : Action → ScriptedStore × Client × List Event
  | .invalidate o =>
      let (c, events) := c.invalidate o
      (s, c, events)
  | .put o data => ({ s with store := s.store.put o data }, c, [])
  | .remove o => ({ s with store := s.store.remove o }, c, [])
  | .reportSize o size => ({ s with store := s.store.reportSize o size }, c, [])
  | .fail kind cause => ({ s with failures := s.failures ++ [(kind, cause)] }, c, [])
  | .hook kind actions => ({ s with hooks := s.hooks ++ [(kind, actions)] }, c, [])

def actAll (s : ScriptedStore) (c : Client) :
    List Action → ScriptedStore × Client × List Event
  | [] => (s, c, [])
  | a :: rest =>
      let (s, c, events) := s.act c a
      let (s, c, more) := s.actAll c rest
      (s, c, events ++ more)

def serve : Client.Server ScriptedStore := fun call s c =>
  let s := { s with calls := call :: s.calls }
  match takeFirst call.kind s.failures with
  | (some cause, failures) => ⟨.error cause, { s with failures }, c, []⟩
  | (none, _) =>
      let (result, store) := s.store.answer call
      let (hook, hooks) := takeFirst call.kind s.hooks
      let (s, c, events) := { s with store, hooks }.actAll c (hook.getD [])
      ⟨result, s, c, events⟩

end ScriptedStore

end ObjectCache
