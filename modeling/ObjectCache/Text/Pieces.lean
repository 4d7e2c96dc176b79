namespace ObjectCache.Text

def pieces (cut : Char → Bool) : List Char → List (List Char)
  | [] => [[]]
  | c :: cs =>
      if cut c then [] :: pieces cut cs
      else match pieces cut cs with
        | [] => [[c]]
        | p :: ps => (c :: p) :: ps

def joined (sep : Char) : List (List Char) → List Char
  | [] => []
  | [p] => p
  | p :: q :: ps => p ++ sep :: joined sep (q :: ps)

theorem pieces_ne_nil (cut : Char → Bool) (cs : List Char) : pieces cut cs ≠ [] := by
  cases cs with
  | nil => simp [pieces]
  | cons c cs =>
      simp only [pieces]
      split
      · simp
      · split <;> simp

theorem joined_pieces (sep : Char) (cs : List Char) : joined sep (pieces (· == sep) cs) = cs := by
  induction cs with
  | nil => rfl
  | cons c cs ih =>
      simp only [pieces]
      cases hp : pieces (· == sep) cs with
      | nil => exact absurd hp (pieces_ne_nil _ _)
      | cons p ps =>
          rw [hp] at ih
          by_cases hc : c = sep
          · simp [hc, joined, ih]
          · cases ps with
            | nil => simpa [hc, joined] using ih
            | cons q qs => simpa [hc, joined] using ih

theorem not_cut_of_mem_pieces (cut : Char → Bool) (cs : List Char) :
    ∀ p ∈ pieces cut cs, ∀ c ∈ p, cut c = false := by
  induction cs with
  | nil => simp [pieces]
  | cons c cs ih =>
      simp only [pieces]
      cases hc : cut c with
      | true => simpa using ih
      | false =>
          cases hp : pieces cut cs with
          | nil => simp [hc]
          | cons p ps =>
              rw [hp] at ih
              simp only [List.mem_cons, forall_eq_or_imp] at ih
              simpa [hc] using ih

theorem pieces_of_not_cut (cut : Char → Bool) (p : List Char) (h : ∀ c ∈ p, cut c = false) :
    pieces cut p = [p] := by
  induction p with
  | nil => rfl
  | cons c cs ih =>
      simp only [List.mem_cons, forall_eq_or_imp] at h
      simp [pieces, h.1, ih h.2]

theorem pieces_append_cons (cut : Char → Bool) (p : List Char) (s : Char) (rest : List Char)
    (h : ∀ c ∈ p, cut c = false) (hs : cut s = true) :
    pieces cut (p ++ s :: rest) = p :: pieces cut rest := by
  induction p with
  | nil => simp [pieces, hs]
  | cons c cs ih =>
      simp only [List.mem_cons, forall_eq_or_imp] at h
      simp [pieces, h.1, ih h.2]

theorem pieces_joined (cut : Char → Bool) {sep : Char} (hsep : cut sep = true)
    {ps : List (List Char)} (hne : ps ≠ []) (h : ∀ p ∈ ps, ∀ c ∈ p, cut c = false) :
    pieces cut (joined sep ps) = ps := by
  induction ps with
  | nil => exact absurd rfl hne
  | cons p ps ih =>
      simp only [List.mem_cons, forall_eq_or_imp] at h
      cases ps with
      | nil => exact pieces_of_not_cut _ _ h.1
      | cons q qs =>
          rw [joined, pieces_append_cons _ _ _ _ h.1 hsep, ih (by simp) h.2]

end ObjectCache.Text
