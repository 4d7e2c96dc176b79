import Mathlib.Logic.Relation
import ObjectCache.Proofs.Client.Turns
import ObjectCache.Proofs.Store.Contents

namespace ObjectCache.Overlap

open Time Client

inductive Happening where
  | called (call : StoreCall)
  | answered (place : Nat) (call : StoreCall) (result : call.Result)
  | returned (place : Nat) (call : StoreCall) (now : Millis)
  | invalidated (object : ObjectName)

def Happening.invalidated? : Happening → Option ObjectName
  | returned _ call _ => call.mutated?
  | invalidated o => some o
  | _ => none

def invalidations (history : List Happening) : List ObjectName :=
  history.filterMap Happening.invalidated?

structure Flight where
  pending : Pending
  place : Nat
  result : Option pending.call.Result

structure World (σ : Type) where
  client : Client
  store : σ
  now : Millis
  flights : List Flight
  history : List Happening

structure Environment (σ : Type) where
  answers : σ → (call : StoreCall) → call.Result → σ → Prop
  drifts : σ → σ → Prop

variable {σ : Type}

def World.start (client : Client) (store : σ) (now : Millis) : World σ :=
  ⟨client, store, now, [], []⟩

def World.settle (w : World σ) (t : Turn) : World σ :=
  match t.progress with
  | .finished _ => { w with client := t.client }
  | .waiting p =>
      { w with
        client := t.client
        flights := w.flights ++ [⟨p, w.history.length, none⟩]
        history := w.history ++ [.called p.call] }

inductive Step (env : Environment σ) : World σ → World σ → Prop
  | start (w : World σ) (op : Operation) : op.IsPlain →
      Step env w (w.settle (w.client.start w.now op))
  | answer (w : World σ) (before after : List Flight) (p : Pending) (place : Nat)
      (result : p.call.Result) (store : σ) :
      w.flights = before ++ ⟨p, place, none⟩ :: after →
      env.answers w.store p.call result store →
      Step env w
        { w with
          store
          flights := before ++ ⟨p, place, some result⟩ :: after
          history := w.history ++ [.answered place p.call result] }
  | deliver (w : World σ) (before after : List Flight) (p : Pending) (place : Nat)
      (result : p.call.Result) :
      w.flights = before ++ ⟨p, place, some result⟩ :: after →
      Step env w
        (World.settle
          { w with
            flights := before ++ after
            history := w.history ++ [.returned place p.call w.now] }
          (w.client.resume w.now p result))
  | invalidate (w : World σ) (o : ObjectName) : o.IsPlain →
      Step env w
        { w with
          client := (w.client.invalidate o).1
          history := w.history ++ [.invalidated o] }
  | sweep (w : World σ) :
      Step env w
        { w with client := { w.client with metadata := (w.client.metadata.purge w.now).2 } }
  | advance (w : World σ) (span : Millis) : Step env w { w with now := w.now + span }
  | drift (w : World σ) (store : σ) : env.drifts w.store store → Step env w { w with store }

abbrev Reaches (env : Environment σ) : World σ → World σ → Prop :=
  Relation.ReflTransGen (Step env)

@[simp] theorem invalidations_append (g h : List Happening) :
    invalidations (g ++ h) = invalidations g ++ invalidations h :=
  List.filterMap_append

/-- An answer was given to a call at its place, it then reached the client, and nothing that
concerns it was invalidated since the call was made. -/
structure Vouches (older newer : List Happening) (call : StoreCall) (result : call.Result)
    (returned : Millis) : Prop where
  answered : .answered older.length call result ∈ newer
  returned : .returned older.length call returned ∈ newer
  undisturbed : ∀ o ∈ invalidations newer, ¬call.Concerns o

/-- The history vouches for an answer; `P` is said of what came before the call and of the time at
which the answer reached the client. -/
def Backed (history : List Happening) (call : StoreCall) (result : call.Result)
    (P : List Happening → Millis → Prop) : Prop :=
  ∃ older newer t, history = older ++ .called call :: newer ∧
    Vouches older newer call result t ∧ P older t

theorem Backed.append {history : List Happening} {call : StoreCall} {result : call.Result}
    {P : List Happening → Millis → Prop} (h : Backed history call result P)
    {more : List Happening} (hmore : ∀ o ∈ invalidations more, ¬call.Concerns o) :
    Backed (history ++ more) call result P := by
  obtain ⟨older, newer, t, rfl, hv, hp⟩ := h
  refine ⟨older, newer ++ more, t, by simp, ⟨?_, ?_, ?_⟩, hp⟩
  · exact List.mem_append_left _ hv.answered
  · exact List.mem_append_left _ hv.returned
  · intro o ho
    rw [invalidations_append, List.mem_append] at ho
    rcases ho with ho | ho
    · exact hv.undisturbed o ho
    · exact hmore o ho

def Happening.changed? : Happening → Option ObjectName
  | answered _ call _ => call.mutated?
  | _ => none

/-- A store that answers faithfully for what it holds, and changes through the client alone. -/
structure Environment.Faithful (env : Environment σ) (view : σ → Contents) : Prop where
  answers : ∀ s call result t, env.answers s call result t →
    (view s).Answers call result (view t)
  drifts : ∀ s t, env.drifts s t → view t = view s

def Environment.ofView (view : σ → Contents) : Environment σ :=
  ⟨fun s call result t => (view s).Answers call result (view t), fun _ _ => False⟩

theorem faithful_ofView (view : σ → Contents) : (Environment.ofView view).Faithful view :=
  ⟨fun _ _ _ _ h => h, fun _ _ h => h.elim⟩

def Settled (flights : List Flight) (history : List Happening) : Prop :=
  ∀ older newer e o, history = older ++ e :: newer → e.changed? = some o →
    o ∈ invalidations newer ∨ ∃ f ∈ flights, f.pending.call.mutated? = some o ∧ f.result ≠ none

def Telling (s : Contents) (history : List Happening) : Prop :=
  ∀ older newer place call result, history = older ++ .answered place call result :: newer →
    (∀ e ∈ newer, ∀ o, e.changed? = some o → ¬call.Concerns o) → s.Tells call result

structure Accounted (view : σ → Contents) (w : World σ) : Prop where
  telling : Telling (view w.store) w.history
  settled : Settled w.flights w.history

def World.Quiet (w : World σ) (call : StoreCall) : Prop :=
  ∀ f ∈ w.flights, f.result ≠ none → ∀ o, f.pending.call.mutated? = some o → ¬call.Concerns o

variable {history older newer : List Happening} {flights more : List Flight} {e x : Happening}
  {s t : Contents} {view : σ → Contents} {w : World σ}

theorem split_of_concat (h : history ++ [x] = older ++ e :: newer) :
    (older = history ∧ e = x ∧ newer = []) ∨
      ∃ rest, newer = rest ++ [x] ∧ history = older ++ e :: rest := by
  rcases List.eq_nil_or_concat newer with rfl | ⟨rest, y, rfl⟩
  · obtain ⟨hl, hr⟩ := List.append_inj' h rfl
    exact .inl ⟨hl.symm, (List.cons.inj hr).1.symm, rfl⟩
  · have hcons : older ++ e :: (rest ++ [y]) = (older ++ e :: rest) ++ [y] := by simp
    rw [List.concat_eq_append, hcons] at h
    obtain ⟨hl, hr⟩ := List.append_inj' h rfl
    exact .inr ⟨rest, by rw [List.concat_eq_append, (List.cons.inj hr).1], hl⟩

theorem Telling.concat (h : Telling s history)
    (hnone : ∀ place call result, x ≠ .answered place call result) :
    Telling s (history ++ [x]) := by
  intro older newer place call result hsplit hlater
  rcases split_of_concat hsplit with ⟨-, he, -⟩ | ⟨rest, rfl, hrest⟩
  · exact absurd he.symm (hnone place call result)
  · exact h older rest place call result hrest fun e he => hlater e (List.mem_append_left _ he)

theorem Telling.answer (h : Telling s history) {place : Nat} {call : StoreCall}
    {result : call.Result} (ha : s.Answers call result t) :
    Telling t (history ++ [.answered place call result]) := by
  intro older newer place' call' result' hsplit hlater
  rcases split_of_concat hsplit with ⟨-, he, -⟩ | ⟨rest, rfl, hrest⟩
  · cases he
    exact ha.tells_after
  · have hbefore := h older rest place' call' result' hrest
      fun e he => hlater e (List.mem_append_left _ he)
    have hchange := hlater (.answered place call result) (by simp)
    exact ha.tells_other hchange hbefore

theorem Settled.concat (h : Settled flights history) (hx : x.changed? = none)
    (hmore : ∀ f ∈ flights, ∀ o, f.pending.call.mutated? = some o → f.result ≠ none →
      x.invalidated? = some o ∨ f ∈ more) : Settled more (history ++ [x]) := by
  intro older newer e o hsplit ho
  rcases split_of_concat hsplit with ⟨-, rfl, -⟩ | ⟨rest, rfl, hrest⟩
  · rw [hx] at ho
    cases ho
  · rcases h older rest e o hrest ho with hi | ⟨f, hf, hm, hr⟩
    · exact .inl (by simp [hi])
    · rcases hmore f hf o hm hr with hi | hf
      · exact .inl (by simp [invalidations, hi])
      · exact .inr ⟨f, hf, hm, hr⟩

theorem Settled.answer {before after : List Flight} {p : Pending} {place : Nat}
    (h : Settled (before ++ ⟨p, place, none⟩ :: after) history) (result : p.call.Result) :
    Settled (before ++ ⟨p, place, some result⟩ :: after)
      (history ++ [.answered place p.call result]) := by
  intro older newer e o hsplit ho
  rcases split_of_concat hsplit with ⟨-, rfl, -⟩ | ⟨rest, rfl, hrest⟩
  · exact .inr ⟨⟨p, place, some result⟩, by simp, ho, by simp⟩
  · rcases h older rest e o hrest ho with hi | ⟨f, hf, hm, hr⟩
    · exact .inl (by simp [hi])
    · rcases List.mem_cons.1 (List.perm_middle.mem_iff.1 hf) with rfl | hf
      · exact absurd rfl hr
      · exact .inr ⟨f, List.perm_middle.mem_iff.2 (List.mem_cons_of_mem _ hf), hm, hr⟩

theorem Accounted.settle (h : Accounted view w) (t : Turn) : Accounted view (w.settle t) := by
  unfold World.settle
  split
  · exact ⟨h.telling, h.settled⟩
  · refine ⟨h.telling.concat (by simp), h.settled.concat rfl ?_⟩
    intro f hf o _ _
    exact .inr (List.mem_append_left _ hf)

theorem accounted_start (view : σ → Contents) (client : Client) (store : σ) (now : Millis) :
    Accounted view (World.start client store now) :=
  ⟨fun older newer place call result h => by simp [World.start] at h,
    fun older newer e o h => by simp [World.start] at h⟩

theorem accounted_step {env : Environment σ} (henv : env.Faithful view) {v : World σ}
    (h : Accounted view w) (hstep : Step env w v) : Accounted view v := by
  cases hstep with
  | start op hop => exact h.settle _
  | answer before after p place result store hflights hanswers =>
      have hsettled := h.settled
      rw [hflights] at hsettled
      exact ⟨h.telling.answer (henv.answers _ _ _ _ hanswers), hsettled.answer result⟩
  | deliver before after p place result hflights =>
      have hreturned : Accounted view
          { w with
            flights := before ++ after
            history := w.history ++ [.returned place p.call w.now] } := by
        refine ⟨h.telling.concat (by simp), h.settled.concat rfl ?_⟩
        intro f hf o hm _
        rw [hflights] at hf
        rcases List.mem_cons.1 (List.perm_middle.mem_iff.1 hf) with rfl | hf
        · exact .inl hm
        · exact .inr hf
      exact hreturned.settle _
  | invalidate o ho =>
      exact ⟨h.telling.concat (by simp), h.settled.concat rfl fun f hf p _ _ => .inr hf⟩
  | sweep => exact ⟨h.telling, h.settled⟩
  | advance span => exact ⟨h.telling, h.settled⟩
  | drift store hdrift =>
      have hview := henv.drifts _ _ hdrift
      exact ⟨hview ▸ h.telling, h.settled⟩

theorem accounted_of_reaches {env : Environment σ} (henv : env.Faithful view) {v : World σ}
    (h : Accounted view w) (hreaches : Reaches env w v) : Accounted view v := by
  induction hreaches with
  | refl => exact h
  | tail _ hstep ih => exact accounted_step henv ih hstep

theorem Accounted.tells_of_undisturbed (h : Accounted view w) {place : Nat} {call : StoreCall}
    {result : call.Result} (hw : w.history = older ++ .answered place call result :: newer)
    (hnone : ∀ o ∈ invalidations newer, ¬call.Concerns o) (hquiet : w.Quiet call) :
    (view w.store).Tells call result := by
  refine h.telling older newer place call result hw ?_
  intro e he o ho hc
  obtain ⟨before, after, rfl⟩ := List.append_of_mem he
  have hsplit : w.history = (older ++ .answered place call result :: before) ++ e :: after := by
    rw [hw]
    simp
  rcases h.settled _ after e o hsplit ho with hi | ⟨f, hf, hm, hr⟩
  · obtain ⟨x, hx, hxo⟩ := List.mem_filterMap.1 hi
    exact hnone o (List.mem_filterMap.2 ⟨x, by simp [hx], hxo⟩) hc
  · exact hquiet f hf hr o hm hc

theorem Accounted.tells (h : Accounted view w) {call : StoreCall} {result : call.Result}
    {P : List Happening → Millis → Prop} (hb : Backed w.history call result P)
    (hquiet : w.Quiet call) : (view w.store).Tells call result := by
  obtain ⟨older, newer, t, hw, hv, -⟩ := hb
  obtain ⟨between, rest, rfl⟩ := List.append_of_mem hv.answered
  have hsplit : w.history =
      (older ++ .called call :: between) ++ .answered older.length call result :: rest := by
    rw [hw]
    simp
  refine h.tells_of_undisturbed hsplit ?_ hquiet
  intro o ho
  obtain ⟨x, hx, hxo⟩ := List.mem_filterMap.1 ho
  exact hv.undisturbed o (List.mem_filterMap.2 ⟨x, by simp [hx], hxo⟩)

end ObjectCache.Overlap
