import Mathlib.Data.List.Dedup
import Mathlib.Data.List.Induction
import ObjectCache.Proofs.Cache.Requests

namespace ObjectCache.BlockCache

variable {size : BlockKey → Nat} {uses order kept : List BlockKey} {key : BlockKey}

def latest (uses : List BlockKey) : List BlockKey := uses.dedup.reverse

def LaterIn (uses : List BlockKey) (a b : BlockKey) : Prop :=
  ∃ older newer, uses = older ++ a :: newer ∧ b ∈ older ∧ b ∉ a :: newer

theorem dedup_concat (uses : List BlockKey) (key : BlockKey) :
    (uses ++ [key]).dedup = uses.dedup.filter (· ≠ key) ++ [key] := by
  induction uses with
  | nil => simp
  | cons a uses ih =>
      by_cases ha : a ∈ uses
      · rw [List.cons_append, List.dedup_cons_of_mem (List.mem_append_left _ ha), ih,
          List.dedup_cons_of_mem ha]
      · rw [List.dedup_cons_of_notMem ha, List.cons_append]
        by_cases hk : a = key
        · rw [List.dedup_cons_of_mem (by simp [hk]), ih]
          simp [hk]
        · rw [List.dedup_cons_of_notMem (by simp [ha, hk]), ih]
          simp [hk]

theorem latest_concat (uses : List BlockKey) (key : BlockKey) :
    latest (uses ++ [key]) = key :: (latest uses).filter (· ≠ key) := by
  simp [latest, dedup_concat, List.filter_reverse]

theorem mem_latest : key ∈ latest uses ↔ key ∈ uses := by simp [latest]

theorem nodup_latest (uses : List BlockKey) : (latest uses).Nodup :=
  List.nodup_reverse.2 (List.nodup_dedup uses)

theorem LaterIn.concat {a b : BlockKey} (h : LaterIn uses a b) (hb : b ≠ key) :
    LaterIn (uses ++ [key]) a b := by
  obtain ⟨older, newer, rfl, hold, hnew⟩ := h
  refine ⟨older, newer ++ [key], by simp, hold, ?_⟩
  simpa [hb] using hnew

theorem pairwise_latest (uses : List BlockKey) : (latest uses).Pairwise (LaterIn uses) := by
  induction uses using List.reverseRecOn with
  | nil => exact .nil
  | append_singleton uses key ih =>
      rw [latest_concat]
      refine .cons ?_ ?_
      · intro b hb
        obtain ⟨hb, hne⟩ := List.mem_filter.1 hb
        exact ⟨uses, [], rfl, mem_latest.1 hb, by simpa using hne⟩
      · refine (ih.filter _).imp_of_mem ?_
        intro a b _ hb hab
        exact hab.concat (by simpa using (List.mem_filter.1 hb).2)

def weight (size : BlockKey → Nat) : List BlockKey → Nat
  | [] => 0
  | key :: keys => size key + weight size keys

structure LongestWithin (size : BlockKey → Nat) (budget : Nat) (order kept : List BlockKey) :
    Prop where
  initial : kept <+: order
  fits : weight size kept ≤ budget
  longest : ∀ more, more <+: order → weight size more ≤ budget → more <+: kept

variable {budget : Nat}

@[simp] theorem weight_nil (size : BlockKey → Nat) : weight size [] = 0 := rfl

@[simp] theorem weight_cons (size : BlockKey → Nat) (key : BlockKey) (keys : List BlockKey) :
    weight size (key :: keys) = size key + weight size keys := rfl

@[simp] theorem weight_append (size : BlockKey → Nat) (as bs : List BlockKey) :
    weight size (as ++ bs) = weight size as + weight size bs := by
  induction as with
  | nil => rw [List.nil_append, weight_nil, Nat.zero_add]
  | cons a as ih => rw [List.cons_append, weight_cons, weight_cons, ih, Nat.add_assoc]

theorem size_le_weight (size : BlockKey → Nat) {keys : List BlockKey} (h : key ∈ keys) :
    size key ≤ weight size keys := by
  obtain ⟨as, bs, rfl⟩ := List.append_of_mem h
  simp only [weight_append, weight_cons]
  omega

theorem weight_map_key {bs : List Block} (h : ∀ b ∈ bs, b.data.size = size b.key) :
    weight size (bs.map Block.key) = bytes bs := by
  induction bs with
  | nil => rfl
  | cons b bs ih =>
      rw [List.forall_mem_cons] at h
      rw [List.map_cons, weight_cons, bytes_cons, h.1, ih h.2]

theorem weight_eq_of_perm {as bs : List BlockKey} (h : as.Perm bs) :
    weight size as = weight size bs := by
  induction h with
  | nil => rfl
  | cons key _ ih => rw [weight_cons, weight_cons, ih]
  | swap a b keys => simp only [weight_cons, Nat.add_left_comm]
  | trans _ _ ih₁ ih₂ => exact ih₁.trans ih₂

theorem longestWithin_iff :
    LongestWithin size budget order kept ↔
      weight size kept ≤ budget ∧ ∃ rest, order = kept ++ rest ∧
        ∀ key more, rest = key :: more → budget < weight size kept + size key := by
  constructor
  · intro h
    obtain ⟨rest, rfl⟩ := h.initial
    refine ⟨h.fits, rest, rfl, ?_⟩
    rintro key more rfl
    by_contra hfits
    have hmore : kept ++ [key] <+: kept :=
      h.longest (kept ++ [key]) ⟨more, by simp⟩ (by simpa using hfits)
    have hlength := hmore.length_le
    rw [List.length_append] at hlength
    exact absurd hlength (Nat.not_succ_le_self _)
  · rintro ⟨hfits, rest, rfl, hnext⟩
    refine ⟨List.prefix_append _ _, hfits, ?_⟩
    intro more hmore hweight
    rcases List.prefix_or_prefix_of_prefix hmore (List.prefix_append kept rest) with h | h
    · exact h
    · obtain ⟨tail, rfl⟩ := h
      cases tail with
      | nil => simp
      | cons key tail =>
          obtain ⟨rest, rfl⟩ := (List.prefix_append_right_inj kept).1 hmore
          have hover := hnext key (tail ++ rest) rfl
          simp only [weight_append, weight_cons] at hweight
          omega

theorem LongestWithin.of_le {larger : Nat} {more : List BlockKey}
    (h : LongestWithin size budget order kept) (k : LongestWithin size larger order more)
    (hle : budget ≤ larger) : kept <+: more :=
  k.longest kept h.initial (Nat.le_trans h.fits hle)

theorem filter_ne_of_notMem {keys : List BlockKey} (h : key ∉ keys) :
    keys.filter (· ≠ key) = keys := by
  rw [List.filter_eq_self]
  intro a ha
  simpa using fun (hak : a = key) => h (hak ▸ ha)

theorem cons_filter_perm {keys : List BlockKey} (hd : keys.Nodup) (h : key ∈ keys) :
    (key :: keys.filter (· ≠ key)).Perm keys := by
  have herase : keys.filter (· ≠ key) = keys.erase key := by
    rw [hd.erase_eq_filter]
    refine List.filter_congr fun a _ => ?_
    rw [Bool.eq_iff_iff]
    simp
  rw [herase]
  exact (List.perm_cons_erase h).symm

theorem LongestWithin.promote (h : LongestWithin size budget order kept) (hd : order.Nodup)
    (hkey : key ∈ kept) :
    LongestWithin size budget (key :: order.filter (· ≠ key))
      (key :: kept.filter (· ≠ key)) := by
  obtain ⟨hfits, rest, rfl, hnext⟩ := longestWithin_iff.1 h
  obtain ⟨hkept, -, hdisjoint⟩ := List.nodup_append.1 hd
  have hsame : weight size (key :: kept.filter (· ≠ key)) = weight size kept :=
    weight_eq_of_perm (cons_filter_perm hkept hkey)
  have hrest : rest.filter (· ≠ key) = rest :=
    filter_ne_of_notMem fun hr => hdisjoint key hkey key hr rfl
  refine longestWithin_iff.2 ⟨hsame ▸ hfits, rest, ?_, ?_⟩
  · rw [List.filter_append, hrest, List.cons_append]
  · rw [hsame]
    exact hnext

theorem LongestWithin.admit {new : List BlockKey} (h : LongestWithin size budget order kept)
    (hkey : key ∉ kept) (hnew : LongestWithin size budget (key :: kept) new) :
    LongestWithin size budget (key :: order.filter (· ≠ key)) new := by
  obtain ⟨-, rest, rfl, hnext⟩ := longestWithin_iff.1 h
  obtain ⟨hfits, cut, hall, hcut⟩ := longestWithin_iff.1 hnew
  refine longestWithin_iff.2 ⟨hfits, cut ++ rest.filter (· ≠ key), ?_, ?_⟩
  · rw [List.filter_append, filter_ne_of_notMem hkey, ← List.cons_append, hall,
      List.append_assoc]
  · intro next more hmore
    cases cut with
    | cons a cut =>
        rw [List.cons_append, List.cons.injEq] at hmore
        exact hmore.1 ▸ hcut a cut rfl
    | nil =>
        rw [List.append_nil] at hall
        subst hall
        rw [weight_cons] at hfits ⊢
        cases rest with
        | nil => simp at hmore
        | cons a rest =>
            have hover := hnext a rest rfl
            by_cases ha : a = key
            · subst ha
              omega
            · rw [List.nil_append, List.filter_cons_of_pos (by simpa using ha),
                List.cons.injEq] at hmore
              rw [← hmore.1]
              omega

theorem LongestWithin.mem_iff {newer older : List BlockKey}
    (h : LongestWithin size budget (newer ++ key :: older) kept)
    (hd : (newer ++ key :: older).Nodup) :
    key ∈ kept ↔ weight size (newer ++ [key]) ≤ budget := by
  have hsplit : newer ++ [key] <+: newer ++ key :: older := ⟨older, by simp⟩
  constructor
  · intro hkey
    rcases List.prefix_or_prefix_of_prefix hsplit h.initial with hle | hle
    · obtain ⟨tail, rfl⟩ := hle
      have hfits := h.fits
      rw [weight_append] at hfits
      omega
    · rcases List.prefix_concat_iff.1 hle with rfl | hle
      · exact h.fits
      · have hnew : key ∈ newer := hle.subset hkey
        exact absurd rfl ((List.nodup_append.1 hd).2.2 key hnew key (by simp))
  · intro hfits
    exact (h.longest _ hsplit hfits).subset (by simp)

end ObjectCache.BlockCache
