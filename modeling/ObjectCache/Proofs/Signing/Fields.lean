import Mathlib.Data.List.Sort
import ObjectCache.Signing.Fields

namespace ObjectCache.Signing.Fields

theorem get?_eq_some_iff (f : Fields) (name value : String) :
    f.get? name = some value ↔ (name, value) ∈ f.entries := by
  obtain ⟨es, hs⟩ := f
  simp only [get?]
  induction es with
  | nil => simp
  | cons e es ih =>
      rw [List.pairwise_cons] at hs
      by_cases he : e.1 = name
      · have hrest : (name, value) ∉ es := by
          intro hmem
          have hlt := hs.1 _ hmem
          rw [he] at hlt
          exact String.lt_irrefl _ hlt
        simp [he, hrest, Prod.ext_iff, eq_comm]
      · have hne : ¬(name, value) = e := by
          rintro rfl
          exact he rfl
        simpa [he, hne] using ih hs.2

theorem pairwise_eq_of_mem_iff {es ds : List (String × String)}
    (he : es.Pairwise fun a b => a.1 < b.1) (hd : ds.Pairwise fun a b => a.1 < b.1)
    (h : ∀ e, e ∈ es ↔ e ∈ ds) : es = ds := by
  have : Std.Irrefl fun a b : String × String => a.1 < b.1 := ⟨fun a => String.lt_irrefl a.1⟩
  exact he.eq_of_mem_iff hd h

theorem ext_get? {f g : Fields} (h : ∀ name, f.get? name = g.get? name) : f = g := by
  have hentries : f.entries = g.entries := by
    refine pairwise_eq_of_mem_iff f.sorted g.sorted fun ⟨name, value⟩ => ?_
    rw [← get?_eq_some_iff, ← get?_eq_some_iff, h]
  cases f
  cases g
  cases hentries
  rfl

theorem mem_names_iff (f : Fields) (name : String) : name ∈ f.names ↔ (f.get? name).isSome := by
  rw [names, List.mem_map, Option.isSome_iff_exists]
  constructor
  · rintro ⟨⟨_, value⟩, he, rfl⟩
    exact ⟨value, (get?_eq_some_iff f _ value).2 he⟩
  · rintro ⟨value, h⟩
    exact ⟨(name, value), (get?_eq_some_iff f name value).1 h, rfl⟩

theorem sorted_names (f : Fields) : f.names.Pairwise (· < ·) := by
  rw [names, List.pairwise_map]
  exact f.sorted

theorem mem_insertEntry {name value : String} {es : List (String × String)}
    (hs : es.Pairwise fun a b => a.1 < b.1) (e : String × String) :
    e ∈ insertEntry name value es ↔ e = (name, value) ∨ e ∈ es ∧ e.1 ≠ name := by
  induction es with
  | nil => simp [insertEntry]
  | cons d es ih =>
      rw [List.pairwise_cons] at hs
      have hes := ih hs.2
      rw [insertEntry]
      split
      -- every name at hand is above the new one
      · rename_i hlt
        have habove : ∀ e ∈ d :: es, e.1 ≠ name := by
          intro e he heq
          rcases List.mem_cons.1 he with rfl | he
          · exact String.lt_irrefl _ (heq ▸ hlt)
          · exact String.lt_irrefl _ (heq ▸ String.lt_trans hlt (hs.1 e he))
        rw [List.mem_cons]
        exact or_congr_right ⟨fun he => ⟨he, habove e he⟩, fun he => he.1⟩
      · rename_i hge
        split
        · rename_i hgt
          have hd : d.1 ≠ name := by
            rintro rfl
            exact String.lt_irrefl _ hgt
          rw [List.mem_cons, hes, List.mem_cons]
          constructor
          · rintro (rfl | rfl | he)
            · exact .inr ⟨.inl rfl, hd⟩
            · exact .inl rfl
            · exact .inr ⟨.inr he.1, he.2⟩
          · rintro (rfl | ⟨rfl | he, hne⟩)
            · exact .inr (.inl rfl)
            · exact .inl rfl
            · exact .inr (.inr ⟨he, hne⟩)
        · rename_i hle
          have hd : d.1 = name :=
            String.le_antisymm (String.not_lt.1 hge) (String.not_lt.1 hle)
          have hrest : ∀ e ∈ es, e.1 ≠ name := by
            intro e he heq
            have hlt := hs.1 e he
            rw [heq, hd] at hlt
            exact String.lt_irrefl _ hlt
          rw [List.mem_cons, List.mem_cons]
          constructor
          · rintro (rfl | he)
            · exact .inl rfl
            · exact .inr ⟨.inr he, hrest e he⟩
          · rintro (rfl | ⟨rfl | he, hne⟩)
            · exact .inl rfl
            · exact absurd hd hne
            · exact .inr he

@[simp] theorem get?_empty (name : String) : empty.get? name = none := rfl

@[simp] theorem get?_insert (f : Fields) (name value other : String) :
    (f.insert name value).get? other = if other = name then some value else f.get? other := by
  apply Option.ext
  intro v
  rw [get?_eq_some_iff, insert, mem_insertEntry f.sorted, ← get?_eq_some_iff, Prod.mk.injEq]
  by_cases h : other = name
  · simp [h, eq_comm]
  · simp [h]

@[simp] theorem get?_erase (f : Fields) (name other : String) :
    (f.erase name).get? other = if other = name then none else f.get? other := by
  apply Option.ext
  intro v
  rw [get?_eq_some_iff, erase, List.mem_filter, ← get?_eq_some_iff]
  by_cases h : other = name
  · simp [h]
  · simp [h]

theorem erase_insert_of_missing {f : Fields} {name : String} (h : f.get? name = none)
    (value : String) : (f.insert name value).erase name = f := by
  apply ext_get?
  intro other
  rw [get?_erase, get?_insert]
  split
  · rename_i heq
    rw [heq, h]
  · rfl

end ObjectCache.Signing.Fields
