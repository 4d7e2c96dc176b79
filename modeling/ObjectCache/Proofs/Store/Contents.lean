import ObjectCache.Store.Memory

namespace ObjectCache

namespace StoreCall

def mutated? : StoreCall → Option ObjectName
  | put o _ => some o
  | delete o => some o
  | _ => none

def Concerns (o : ObjectName) : StoreCall → Prop
  | head p => p = o
  | get p _ _ => p = o
  | list name => name.bucket = o.bucket
  | _ => False

end StoreCall

structure Contents where
  objects : ObjectName → Option ByteArray
  listing : ListingName → List ObjectSummary

namespace Contents

structure Replaces (s : Contents) (o : ObjectName) (content : Option ByteArray) (t : Contents) :
    Prop where
  object : t.objects o = content
  others : ∀ p, p ≠ o → t.objects p = s.objects p
  listing : ∀ name, name.bucket ≠ o.bucket → t.listing name = s.listing name

def Tells (s : Contents) : (call : StoreCall) → call.Result → Prop
  | .head o, .ok n => ∃ content, s.objects o = some content ∧ content.size = n.toNat
  | .get o offset length, .ok data =>
      ∃ content, s.objects o = some content ∧ data = MemoryStore.range content offset length
  | .list name, .ok objects => objects = s.listing name
  | _, _ => True

def Effect (s : Contents) : StoreCall → Contents → Prop
  | .put o data, t => s.Replaces o (some data) t
  | .delete o, t => s.Replaces o none t
  | _, t => t = s

/-- A call that failed may have taken effect all the same. -/
structure Answers (s : Contents) (call : StoreCall) (result : call.Result) (t : Contents) :
    Prop where
  tells : s.Tells call result
  effect : s.Effect call t ∨ (∃ e, result = .error e) ∧ t = s

variable {s t : Contents} {call other : StoreCall} {o : ObjectName}

theorem Effect.eq_or_replaces (h : s.Effect call t) :
    t = s ∨ ∃ o content, call.mutated? = some o ∧ s.Replaces o content t := by
  cases call with
  | head p => exact .inl h
  | get p offset length => exact .inl h
  | list name => exact .inl h
  | put p data => exact .inr ⟨p, some data, rfl, h⟩
  | delete p => exact .inr ⟨p, none, rfl, h⟩

theorem Answers.eq_or_replaces {result : call.Result} (h : s.Answers call result t) :
    t = s ∨ ∃ o content, call.mutated? = some o ∧ s.Replaces o content t := by
  rcases h.effect with he | ⟨-, rfl⟩
  · exact he.eq_or_replaces
  · exact .inl rfl

theorem Answers.eq_of_mutated?_eq_none {result : call.Result} (h : s.Answers call result t)
    (hm : call.mutated? = none) : t = s := by
  rcases h.eq_or_replaces with he | ⟨o, content, ho, -⟩
  · exact he
  · rw [hm] at ho
    cases ho

theorem Replaces.tells {content : Option ByteArray} {result : call.Result}
    (h : s.Replaces o content t) (hc : ¬call.Concerns o) (ht : s.Tells call result) :
    t.Tells call result := by
  cases call with
  | head p =>
      cases result with
      | error e => trivial
      | ok n =>
          rw [Tells, h.others p hc]
          exact ht
  | get p offset length =>
      cases result with
      | error e => trivial
      | ok data =>
          rw [Tells, h.others p hc]
          exact ht
  | list name =>
      cases result with
      | error e => trivial
      | ok objects =>
          rw [Tells, h.listing name hc]
          exact ht
  | put p data => trivial
  | delete p => trivial

theorem Answers.tells_after {result : call.Result} (h : s.Answers call result t) :
    t.Tells call result := by
  cases hm : call.mutated? with
  | none =>
      rw [h.eq_of_mutated?_eq_none hm]
      exact h.tells
  | some o =>
      cases call with
      | put p data => trivial
      | delete p => trivial
      | head p => cases hm
      | get p offset length => cases hm
      | list name => cases hm

theorem Answers.tells_other {result : call.Result} {answer : other.Result}
    (h : s.Answers call result t) (hc : ∀ o, call.mutated? = some o → ¬other.Concerns o)
    (ht : s.Tells other answer) : t.Tells other answer := by
  rcases h.eq_or_replaces with rfl | ⟨o, content, ho, hr⟩
  · exact ht
  · exact hr.tells (hc o ho) ht

end Contents

end ObjectCache
