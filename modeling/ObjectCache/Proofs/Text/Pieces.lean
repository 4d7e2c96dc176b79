import ObjectCache.Text.Blank

namespace ObjectCache.Text

theorem ne_of_kind {α : Type} {p : α → Bool} {c mark : α} (hc : p c = true)
    (hmark : p mark = false) : c ≠ mark := by
  rintro rfl
  rw [hc] at hmark
  cases hmark

theorem notMem_of_kind {α : Type} {p : α → Bool} {mark : α} {cs : List α}
    (h : ∀ c ∈ cs, p c = true) (hmark : p mark = false) : mark ∉ cs :=
  fun hmem => ne_of_kind (h mark hmem) hmark rfl

theorem eq_of_append_cons_eq {α : Type} {mark : α} {as bs cs ds : List α} (ha : mark ∉ as)
    (hb : mark ∉ bs) (h : as ++ mark :: cs = bs ++ mark :: ds) : as = bs ∧ cs = ds := by
  induction as generalizing bs with
  | nil =>
      cases bs with
      | nil => simpa using h
      | cons b bs =>
          simp only [List.nil_append, List.cons_append, List.cons.injEq] at h
          exact absurd (h.1 ▸ List.mem_cons_self) hb
  | cons a as ih =>
      cases bs with
      | nil =>
          simp only [List.nil_append, List.cons_append, List.cons.injEq] at h
          exact absurd (h.1 ▸ List.mem_cons_self) ha
      | cons b bs =>
          simp only [List.cons_append, List.cons.injEq] at h
          obtain ⟨has, hcs⟩ := ih (fun hm => ha (List.mem_cons_of_mem _ hm))
            (fun hm => hb (List.mem_cons_of_mem _ hm)) h.2
          exact ⟨by rw [h.1, has], hcs⟩

theorem mem_joined {sep c : Char} {ps : List (List Char)} (h : c ∈ joined sep ps) :
    c = sep ∨ ∃ p ∈ ps, c ∈ p := by
  induction ps with
  | nil => cases h
  | cons p ps ih =>
      cases ps with
      | nil => exact .inr ⟨p, .head _, h⟩
      | cons q qs =>
          rw [joined, List.mem_append, List.mem_cons] at h
          rcases h with h | h | h
          · exact .inr ⟨p, .head _, h⟩
          · exact .inl h
          · rcases ih h with h | ⟨r, hr, hc⟩
            · exact .inl h
            · exact .inr ⟨r, .tail _ hr, hc⟩

theorem notMem_joined {sep c : Char} {ps : List (List Char)} (hc : c ≠ sep)
    (h : ∀ p ∈ ps, c ∉ p) : c ∉ joined sep ps := by
  intro hmem
  rcases mem_joined hmem with heq | ⟨p, hp, hmem⟩
  · exact hc heq
  · exact h p hp hmem

theorem intercalate_eq_joined (sep : Char) (ps : List (List Char)) :
    List.intercalate [sep] ps = joined sep ps := by
  induction ps with
  | nil => rfl
  | cons p ps ih =>
      cases ps with
      | nil => simp [joined]
      | cons q qs => rw [List.intercalate_cons_cons, ih, joined, List.append_assoc]; rfl

theorem joined_eq_nil_of_map {sep : Char} {f : List Char → List Char}
    (hf : ∀ p, f p = [] → p = []) {ps : List (List Char)} (h : joined sep (ps.map f) = []) :
    joined sep ps = [] := by
  match ps with
  | [] => rfl
  | [p] => exact hf p h
  | p :: q :: ps => exact absurd h (by simp [joined])

theorem pieces_append (sep : Char) (as bs : List Char) :
    pieces (· == sep) (as ++ sep :: bs) = pieces (· == sep) as ++ pieces (· == sep) bs := by
  induction as with
  | nil => simp [pieces]
  | cons a as ih =>
      rw [List.cons_append, pieces, pieces, ih]
      split
      · rfl
      · cases hp : pieces (· == sep) as with
        | nil => exact absurd hp (pieces_ne_nil _ _)
        | cons p ps => rfl

theorem takeWhile_append_cons {mark : Char} {as : List Char} (h : mark ∉ as) (bs : List Char) :
    (as ++ mark :: bs).takeWhile (· != mark) = as := by
  have hne : ∀ c ∈ as, (c != mark) = true := fun c hc =>
    bne_iff_ne.2 (ne_of_mem_of_not_mem hc h)
  simp [List.takeWhile_append_of_pos hne]

theorem dropWhile_append_cons {mark : Char} {as : List Char} (h : mark ∉ as) (bs : List Char) :
    (as ++ mark :: bs).dropWhile (· != mark) = mark :: bs := by
  have hne : ∀ c ∈ as, (c != mark) = true := fun c hc =>
    bne_iff_ne.2 (ne_of_mem_of_not_mem hc h)
  simp [List.dropWhile_append_of_pos hne]

theorem not_cut_of_notMem {sep : Char} {p : List Char} (h : sep ∉ p) :
    ∀ c ∈ p, (c == sep) = false := by
  intro c hc
  simp only [beq_eq_false_iff_ne]
  rintro rfl
  exact h hc

theorem pieces_of_notMem {sep : Char} {p : List Char} (h : sep ∉ p) :
    pieces (· == sep) p = [p] :=
  pieces_of_not_cut _ p (not_cut_of_notMem h)

theorem pieces_joined_of_notMem {sep : Char} {ps : List (List Char)} (hne : ps ≠ [])
    (h : ∀ p ∈ ps, sep ∉ p) : pieces (· == sep) (joined sep ps) = ps :=
  pieces_joined (· == sep) (beq_self_eq_true sep) hne fun p hp => not_cut_of_notMem (h p hp)

theorem joined_injective {sep : Char} {ps qs : List (List Char)} (hp : ps ≠ []) (hq : qs ≠ [])
    (hps : ∀ p ∈ ps, sep ∉ p) (hqs : ∀ q ∈ qs, sep ∉ q)
    (h : joined sep ps = joined sep qs) : ps = qs := by
  rw [← pieces_joined_of_notMem hp hps, h, pieces_joined_of_notMem hq hqs]

theorem ne_nil_of_mem_words {cs w : List Char} (h : w ∈ words cs) : w ≠ [] := by
  have hempty := (List.mem_filter.1 h).2
  rintro rfl
  cases hempty

theorem not_blank_of_mem_words {cs w : List Char} (h : w ∈ words cs) :
    ∀ c ∈ w, isBlank c = false :=
  not_cut_of_mem_pieces isBlank cs w (List.mem_filter.1 h).1

theorem filter_pieces_joined_words (cs : List Char) :
    (pieces (· == ' ') (joined ' ' (words cs))).filter (!·.isEmpty) = words cs := by
  by_cases hnil : words cs = []
  · rw [hnil]
    rfl
  · rw [pieces_joined_of_notMem hnil, List.filter_eq_self]
    · intro w hw
      simpa using ne_nil_of_mem_words hw
    · intro w hw hmem
      exact absurd (not_blank_of_mem_words hw ' ' hmem) (by decide)

theorem collapse_eq_iff {v w : String} :
    collapse v = collapse w ↔ words v.toList = words w.toList := by
  constructor
  · intro h
    have hjoined := String.ofList_injective h
    rw [← filter_pieces_joined_words, hjoined, filter_pieces_joined_words]
  · intro h
    rw [collapse, h, collapse]

theorem notMem_collapse {c : Char} (hblank : isBlank c = true) (hc : c ≠ ' ') (v : String) :
    c ∉ (collapse v).toList := by
  rw [collapse, String.toList_ofList]
  refine notMem_joined hc fun w hw hmem => ?_
  rw [not_blank_of_mem_words hw c hmem] at hblank
  cases hblank

end ObjectCache.Text
