import Mathlib.Data.List.Dedup
import Mathlib.Data.List.Perm.Subperm
import ObjectCache.Proofs.Signing.Keys

namespace ObjectCache.Signing.KeyCache

inductive Use where
  | signingKey (scope : KeyScope) (date : String)
  | clear

def Use.scope? : Use → Option KeyScope
  | signingKey scope _ => some scope
  | clear => none

def perform (c : KeyCache) : Use → KeyCache
  | .signingKey scope date => (c.signingKey scope date).2
  | .clear => c.clear

def capacity : Nat := 256

/-- What a history of uses, the latest first, can lead to. Keys make room for others only where there
are more of them than the capacity. -/
inductive After : List Use → KeyCache → Prop
  | new : After [] .empty
  | use {history : List Use} {c : KeyCache} (h : After history c) (u : Use) :
      After (u :: history) (c.perform u)
  | evict {history : List Use} {c : KeyCache} (h : After history c)
      (hfull : capacity < c.keys.size) (keep : KeyScope → DatedKey → Bool) :
      After history { c with keys := c.keys.filter keep }

def scopes (history : List Use) : List KeyScope := (history.filterMap Use.scope?).dedup

def calls (history : List Use) : Nat := (history.filterMap Use.scope?).length

def lastDate? (scope : KeyScope) : List Use → Option String
  | [] => none
  | .clear :: _ => none
  | .signingKey s date :: older => if s = scope then some date else lastDate? scope older

variable {c : KeyCache} {history : List Use} {scope : KeyScope} {date : String}

theorem signingKey_of_held {key : ByteArray} (h : c.held? scope date = some key) :
    c.signingKey scope date = (key, { c with hits := c.hits + 1 }) := by
  simp [signingKey, h]

theorem signingKey_of_missing (h : c.held? scope date = none) :
    c.signingKey scope date = (scope.key date,
      { c with
        keys := c.keys.insert scope ⟨date, scope.key date⟩
        misses := c.misses + 1 }) := by
  simp [signingKey, h]

theorem calls_signingKey (scope : KeyScope) (date : String) (older : List Use) :
    calls (.signingKey scope date :: older) = calls older + 1 := rfl

theorem counted_signingKey (c : KeyCache) (scope : KeyScope) (date : String) :
    (c.signingKey scope date).2.hits + (c.signingKey scope date).2.misses =
      c.hits + c.misses + 1 := by
  cases hheld : c.held? scope date with
  | some key =>
      rw [signingKey_of_held hheld]
      exact Nat.add_right_comm _ _ _
  | none => rw [signingKey_of_missing hheld, Nat.add_assoc]

theorem counted_of_after (h : After history c) : c.hits + c.misses = calls history := by
  induction h with
  | new => rfl
  | use h u ih =>
      cases u with
      | signingKey scope date => rw [perform, counted_signingKey, ih, calls_signingKey]
      | clear => exact ih
  | evict _ _ _ ih => exact ih

theorem mem_scopes_of_lastDate? (h : lastDate? scope history = some date) :
    scope ∈ scopes history := by
  rw [scopes, List.mem_dedup, List.mem_filterMap]
  induction history with
  | nil => cases h
  | cons u older ih =>
      cases u with
      | clear => cases h
      | signingKey s d =>
          rw [lastDate?] at h
          split at h
          · rename_i hscope
            exact ⟨.signingKey s d, List.mem_cons_self, congrArg some hscope⟩
          · obtain ⟨v, hv, hscope⟩ := ih h
            exact ⟨v, List.mem_cons_of_mem _ hv, hscope⟩

theorem length_scopes_le_cons (u : Use) (older : List Use) :
    (scopes older).length ≤ (scopes (u :: older)).length := by
  have hsubset : scopes older ⊆ scopes (u :: older) := by
    intro scope hscope
    rw [scopes, List.mem_dedup, List.mem_filterMap] at hscope ⊢
    obtain ⟨v, hv, heq⟩ := hscope
    exact ⟨v, List.mem_cons_of_mem _ hv, heq⟩
  exact ((List.nodup_dedup _).subperm hsubset).length_le

def Recalls (c : KeyCache) (history : List Use) : Prop :=
  ∀ scope, c.keys.get? scope =
    (lastDate? scope history).map fun date => ⟨date, scope.key date⟩

theorem Recalls.held?_eq_some_iff (h : c.Recalls history) {key : ByteArray} :
    c.held? scope date = some key ↔ lastDate? scope history = some date ∧ key = scope.key date := by
  rw [held?, h scope]
  cases lastDate? scope history with
  | none => simp
  | some d =>
      by_cases hd : d = date
      · simp [hd, eq_comm]
      · simp [hd]

theorem Recalls.held (h : c.Recalls history) (hlast : lastDate? scope history = some date) :
    c.held? scope date = some (scope.key date) :=
  h.held?_eq_some_iff.2 ⟨hlast, rfl⟩

theorem Recalls.missing (h : c.Recalls history) (hlast : lastDate? scope history ≠ some date) :
    c.held? scope date = none := by
  refine Option.eq_none_iff_forall_ne_some.2 ?_
  intro key hkey
  exact hlast (h.held?_eq_some_iff.1 hkey).1

theorem Recalls.signingKey (h : c.Recalls history) (scope : KeyScope) (date : String) :
    (c.signingKey scope date).2.Recalls (.signingKey scope date :: history) := by
  intro other
  rw [lastDate?]
  by_cases hlast : lastDate? scope history = some date
  · rw [signingKey_of_held (h.held hlast), h other]
    split
    · rename_i heq
      rw [← heq, hlast]
    · rfl
  · rw [signingKey_of_missing (h.missing hlast), Table.get?_insert]
    split
    · rename_i heq
      rw [if_pos heq.symm, heq]
      rfl
    · rename_i hne
      rw [if_neg (Ne.symm hne), h other]

theorem Recalls.size_le (h : c.Recalls history) : c.keys.size ≤ (scopes history).length := by
  have hnodup : (c.keys.entries.map (·.1)).Nodup := List.pairwise_map.2 c.keys.distinct
  have hsubset : c.keys.entries.map (·.1) ⊆ scopes history := by
    intro scope hscope
    obtain ⟨⟨s, k⟩, hentry, rfl⟩ := List.mem_map.1 hscope
    have hget := (c.keys.get?_eq_some_iff s k).2 hentry
    rw [h s, Option.map_eq_some_iff] at hget
    obtain ⟨date, hlast, -⟩ := hget
    exact mem_scopes_of_lastDate? hlast
  calc
    c.keys.size = (c.keys.entries.map (·.1)).length := (List.length_map _).symm
    _ ≤ (scopes history).length := (hnodup.subperm hsubset).length_le

theorem recalls_of_after (h : After history c) (hfew : (scopes history).length ≤ capacity) :
    c.Recalls history := by
  induction h with
  | new =>
      intro scope
      rfl
  | @use older d _ u ih =>
      have hrecalls := ih (Nat.le_trans (length_scopes_le_cons u older) hfew)
      cases u with
      | signingKey scope date => exact hrecalls.signingKey scope date
      | clear =>
          intro scope
          rfl
  | evict _ hfull _ ih => exact absurd (Nat.le_trans (ih hfew).size_le hfew) (Nat.not_le.2 hfull)

/-- As long as no more scopes are used than there is room for, a key is reused exactly when its scope
was last used with the same date since the keys were cleared, and each key is the one derived for what
was asked. -/
theorem keys_are_reused_by_date (h : After history c)
    (hfew : (scopes history).length ≤ capacity) :
    (∀ scope, c.keys.get? scope =
      (lastDate? scope history).map fun date => ⟨date, scope.key date⟩) ∧
    c.hits + c.misses = calls history ∧
    ∀ secret date region service,
      let scope : KeyScope := ⟨secret, region, service⟩
      let answer := c.signingKey scope date
      answer.1 = deriveKey secret date region service ∧
      (lastDate? scope history = some date → answer.2 = { c with hits := c.hits + 1 }) ∧
      (lastDate? scope history ≠ some date →
        answer.2.hits = c.hits ∧ answer.2.misses = c.misses + 1 ∧
        ∀ other, answer.2.keys.get? other =
          if other = scope then some ⟨date, deriveKey secret date region service⟩
          else c.keys.get? other) := by
  have hrecalls := recalls_of_after h hfew
  refine ⟨hrecalls, counted_of_after h, ?_⟩
  intro secret date region service scope answer
  by_cases hlast : lastDate? scope history = some date
  · have hanswer : answer = _ := signingKey_of_held (hrecalls.held hlast)
    rw [hanswer]
    exact ⟨rfl, fun _ => rfl, fun hne => absurd hlast hne⟩
  · have hanswer : answer = _ := signingKey_of_missing (hrecalls.missing hlast)
    rw [hanswer]
    have hkeys := fun other => c.keys.get?_insert scope other ⟨date, scope.key date⟩
    exact ⟨rfl, fun heq => absurd heq hlast, fun _ => ⟨rfl, rfl, hkeys⟩⟩

theorem earlier_date_is_derived_again :
    let scope : KeyScope := ⟨"s", "r", "t"⟩
    let history : List Use := [.signingKey scope "20240116", .signingKey ⟨"s", "r", "u"⟩ "20240115",
      .signingKey scope "20240115", .clear, .signingKey scope "20240116"]
    ∃ c, After history c ∧ (scopes history).length ≤ capacity ∧
      (c.signingKey scope "20240115").1 = deriveKey "s" "20240115" "r" "t" ∧
      (c.signingKey scope "20240115").2.misses = c.misses + 1 ∧
      (c.signingKey scope "20240116").2.hits = c.hits + 1 := by
  intro scope history
  have hafter : After history _ := ((((After.new.use _).use _).use _).use _).use _
  have hfew : (scopes history).length ≤ capacity := by decide
  obtain ⟨-, -, hkeys⟩ := keys_are_reused_by_date hafter hfew
  obtain ⟨hkey, -, hmiss⟩ := hkeys "s" "20240115" "r" "t"
  obtain ⟨-, hhit, -⟩ := hkeys "s" "20240116" "r" "t"
  exact ⟨_, hafter, hfew, hkey, (hmiss (by decide)).2.1, congrArg KeyCache.hits (hhit (by decide))⟩

end ObjectCache.Signing.KeyCache
