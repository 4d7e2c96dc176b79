import ObjectCache.Proofs.Client.Soundness
import ObjectCache.Proofs.Text.Digits
import ObjectCache.Store.Remote

namespace ObjectCache

namespace MemoryStore

def view (s : MemoryStore) : Contents := ⟨s.objects.get?, s.listing⟩

/-- The size is told in a reply, as a remote store tells it. -/
def head (s : MemoryStore) (o : ObjectName) : Except StoreError UInt64 :=
  match s.objects.get? o with
  | some data => RemoteStore.readLength o.path ⟨200, some (toString data.size), none⟩
  | none => .error (.notFound o.key)

def serve : Client.Server MemoryStore := fun call s c =>
  match call with
  | .head o => ⟨s.head o, s, c, []⟩
  | call => ⟨(s.answer call).1, (s.answer call).2, c, []⟩

theorem listing_eq_of_filter_eq {s t : MemoryStore} {name : ListingName}
    (h : t.objects.entries.filter (fun e => isUnder name e.1) =
      s.objects.entries.filter (fun e => isUnder name e.1)) : t.listing name = s.listing name := by
  simp only [listing, h]

theorem filter_entries_erase {objects : Table ObjectName ByteArray} {o : ObjectName}
    {name : ListingName} (h : name.bucket ≠ o.bucket) :
    (objects.erase o).entries.filter (fun e => isUnder name e.1) =
      objects.entries.filter (fun e => isUnder name e.1) := by
  rw [Table.erase, Table.filter, List.filter_filter]
  refine List.filter_congr ?_
  intro e _
  by_cases he : e.1 = o
  · simp [isUnder, he, h.symm]
  · simp [he]

theorem replaces_put (s : MemoryStore) (o : ObjectName) (data : ByteArray) :
    s.view.Replaces o (some data) (s.put o data).view := by
  refine ⟨?_, ?_, ?_⟩
  · simp [view, put]
  · intro p hp
    simp [view, put, hp]
  · intro name hname
    have hunder : isUnder name o = false := by simp [isUnder, hname.symm]
    refine listing_eq_of_filter_eq (Eq.trans ?_ (filter_entries_erase hname))
    simp [put, Table.insert, hunder]

theorem replaces_remove (s : MemoryStore) (o : ObjectName) :
    s.view.Replaces o none (s.remove o).view := by
  refine ⟨?_, ?_, ?_⟩
  · simp [view, remove]
  · intro p hp
    simp [view, remove, hp]
  · intro name hname
    exact listing_eq_of_filter_eq (filter_entries_erase hname)

theorem tells_head (s : MemoryStore) (o : ObjectName) : s.view.Tells (.head o) (s.head o) := by
  unfold head
  split
  · rename_i data hd
    simp only [RemoteStore.readLength, Option.bind_some]
    split
    · rename_i n hn
      exact ⟨data, hd, (Text.Numeral.word?_toString.1 hn).symm⟩
    · trivial
  · trivial

theorem tells_get (s : MemoryStore) (o : ObjectName) (offset length : UInt64) :
    s.view.Tells (.get o offset length) (s.answer (.get o offset length)).1 := by
  simp only [answer]
  split
  · rename_i data hd
    exact ⟨data, hd, rfl⟩
  · trivial

theorem answer_get_snd (s : MemoryStore) (o : ObjectName) (offset length : UInt64) :
    (s.answer (.get o offset length)).2 = s := by
  simp only [answer]
  split <;> rfl

theorem faithful_serve : serve.Faithful view := by
  constructor
  · intro call s c
    cases call with
    | head o => exact ⟨s.tells_head o, .inl rfl⟩
    | get o offset length =>
        exact ⟨s.tells_get o offset length, .inl (congrArg view (s.answer_get_snd o offset length))⟩
    | put o data => exact ⟨trivial, .inl (s.replaces_put o data)⟩
    | delete o => exact ⟨trivial, .inl (s.replaces_remove o)⟩
    | list name => exact ⟨rfl, .inl rfl⟩
  · intro call s c
    cases call <;> rfl

end MemoryStore

namespace Client

open Time

inductive Deed where
  | perform (op : Operation)
  | invalidate (object : ObjectName)
  | advance (span : Millis)

def Deed.IsPlain : Deed → Prop
  | .perform op => op.IsPlain
  | .invalidate o => o.IsPlain
  | .advance _ => True

def Deed.span : Deed → Millis
  | .advance span => span
  | _ => 0

def spans : List Deed → Millis
  | [] => 0
  | d :: deeds => d.span + spans deeds

structure Scene (σ : Type) where
  server : σ
  client : Client
  now : Millis

def Scene.after {σ : Type} (serve : Server σ) (x : Scene σ) : Deed → Scene σ
  | .perform op =>
      let outcome := run serve x.now op x.server x.client
      ⟨outcome.server, outcome.client, x.now⟩
  | .invalidate o => { x with client := (x.client.invalidate o).1 }
  | .advance span => { x with now := x.now + span }

def Scene.afterAll {σ : Type} (serve : Server σ) (x : Scene σ) (deeds : List Deed) : Scene σ :=
  deeds.foldl (Scene.after serve) x

variable {σ : Type} {serve : Server σ} {view : σ → Contents} {x : Scene σ}

theorem now_after (x : Scene σ) (d : Deed) : (x.after serve d).now = x.now + d.span := by
  cases d <;> rfl

theorem now_afterAll (x : Scene σ) (deeds : List Deed) :
    (x.afterAll serve deeds).now = x.now + spans deeds := by
  induction deeds generalizing x with
  | nil => rfl
  | cons d deeds ih =>
      have h := ih (x.after serve d)
      rw [now_after] at h
      rw [spans, ← Nat.add_assoc, ← h]
      rfl

structure Scene.Coherent (view : σ → Contents) (headTtl listingTtl : Millis) (x : Scene σ) :
    Prop where
  holds : x.client.Holds (factsOf (view x.server) fun _ => True)
  headTtl : x.client.metadata.headTtl = headTtl
  listingTtl : x.client.metadata.listingTtl = listingTtl

theorem coherent_new (signer : Signer) (budget : UInt64) (headTtl listingTtl : Millis)
    (server : σ) (now : Millis) :
    Scene.Coherent view headTtl listingTtl
      ⟨server, .new signer (.withBudget budget) (.withTtls headTtl listingTtl), now⟩ :=
  ⟨⟨by simp [new, BlockCache.withBudget], by simp [new, MetadataCache.withTtls],
    by simp [new, MetadataCache.withTtls]⟩, rfl, rfl⟩

theorem coherent_after {headTtl listingTtl : Millis} (hserve : serve.Faithful view)
    (h : x.Coherent view headTtl listingTtl) {d : Deed} (hplain : d.IsPlain)
    (hhead : x.now + headTtl < horizon) (hlisting : x.now + listingTtl < horizon) :
    (x.after serve d).Coherent view headTtl listingTtl := by
  cases d with
  | perform op =>
      have habout : op.ReadsAbout fun _ => True := by cases op <;> trivial
      have hrun := sound_run hserve hplain habout [] h.holds (h.headTtl ▸ hhead)
        (h.listingTtl ▸ hlisting)
      have heq := run_noting serve x.now x.server x.client op []
      simp only [Scene.after, heq]
      exact ⟨hrun.1.holds, hrun.2.head.trans h.headTtl, hrun.2.listing.trans h.listingTtl⟩
  | invalidate o => exact ⟨holds_invalidate h.holds o, h.headTtl, h.listingTtl⟩
  | advance span => exact ⟨h.holds, h.headTtl, h.listingTtl⟩

theorem coherent_afterAll {headTtl listingTtl : Millis} (hserve : serve.Faithful view)
    (h : x.Coherent view headTtl listingTtl) {deeds : List Deed}
    (hplain : ∀ d ∈ deeds, d.IsPlain)
    (hhead : x.now + spans deeds + headTtl < horizon)
    (hlisting : x.now + spans deeds + listingTtl < horizon) :
    (x.afterAll serve deeds).Coherent view headTtl listingTtl := by
  induction deeds generalizing x with
  | nil => exact h
  | cons d deeds ih =>
      rw [spans] at hhead hlisting
      simp only [List.mem_cons, forall_eq_or_imp] at hplain
      have hnow (ttl : Millis) : x.now + ttl ≤ x.now + (d.span + spans deeds) + ttl :=
        Nat.add_le_add_right (Nat.le_add_right _ _) ttl
      have hx := coherent_after hserve h hplain.1 (Nat.lt_of_le_of_lt (hnow _) hhead)
        (Nat.lt_of_le_of_lt (hnow _) hlisting)
      refine ih hx hplain.2 ?_ ?_
      · rwa [now_after, Nat.add_assoc x.now]
      · rwa [now_after, Nat.add_assoc x.now]

/-- Whatever ran before, under any budget and any times to live, an operation fails only with a call
of its own that failed; else its answer is the one that the store's present content demands. Only a
read of more bytes than memory can be asked for has none: it ends in the overflow. -/
theorem sequential_answers_agree (hserve : serve.Faithful view) (signer : Signer)
    (budget : UInt64) (headTtl listingTtl : Millis) (server : σ) (now : Millis)
    (deeds : List Deed) (hdeeds : ∀ d ∈ deeds, d.IsPlain) (op : Operation) (hplain : op.IsPlain)
    (hhead : now + spans deeds + headTtl < horizon)
    (hlisting : now + spans deeds + listingTtl < horizon) :
    let client := Client.new signer (.withBudget budget) (.withTtls headTtl listingTtl)
    let x := (Scene.mk server client now).afterAll serve deeds
    let outcome := run serve.noting x.now op (x.server, []) x.client
    run serve x.now op x.server x.client =
        ⟨outcome.answer, outcome.server.1, outcome.client, outcome.events⟩ ∧
      ((∃ e, outcome.answer = .failed e ∧ outcome.server.2 = [e]) ∨
        (Concludes (view outcome.server.1) op outcome.answer ∧ outcome.server.2 = [] ∧
          ∀ a, Concludes (view outcome.server.1) op a → a = outcome.answer)) := by
  intro client x outcome
  have hx : x.Coherent view headTtl listingTtl :=
    coherent_afterAll hserve (coherent_new signer budget headTtl listingTtl server now) hdeeds
      hhead hlisting
  have hnow : x.now = now + spans deeds := now_afterAll _ deeds
  have habout : op.ReadsAbout fun _ => True := by cases op <;> trivial
  rw [← hnow, ← hx.headTtl] at hhead
  rw [← hnow, ← hx.listingTtl] at hlisting
  have hrun := sound_run hserve hplain habout [] hx.holds hhead hlisting
  refine ⟨run_noting serve x.now x.server x.client op [], ?_⟩
  rcases hrun.1.answer with hfail | ⟨hconcludes, hnone⟩
  · exact .inl hfail
  · exact .inr ⟨hconcludes, hnone, fun a ha => concludes_unique ha hconcludes⟩

theorem read_after_write_agrees :
    let o : ObjectName := ⟨"b", "dir/k"⟩
    let deeds := [.perform (.write o ⟨#[1, 2]⟩), .perform (.read o 0 9), .advance 7000,
      .perform (.write o ⟨#[3, 4, 5]⟩)]
    let x := (Scene.mk MemoryStore.empty (Client.new (.new ⟨"", "", none⟩ "r") (.withBudget 0)
      (.withTtls 5000 5000)) 0).afterAll MemoryStore.serve deeds
    let outcome := run MemoryStore.serve.noting x.now (.read o 1 18446744073709551615)
      (x.server, []) x.client
    (∃ e, outcome.answer = .failed e ∧ outcome.server.2 = [e]) ∨
      Concludes outcome.server.1.view (.read o 1 18446744073709551615) outcome.answer := by
  intro o deeds x outcome
  have ho : o.IsPlain := by simp [o, ObjectName.IsPlain]
  have hdeeds : ∀ d ∈ deeds, d.IsPlain := by
    simp [deeds, Deed.IsPlain, Operation.IsPlain, ho]
  have h := (sequential_answers_agree MemoryStore.faithful_serve (.new ⟨"", "", none⟩ "r") 0 5000
    5000 MemoryStore.empty 0 deeds hdeeds (.read o 1 18446744073709551615) ho (by decide)
    (by decide)).2
  exact h.imp id And.left

end Client

end ObjectCache
