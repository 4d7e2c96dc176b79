import Mathlib.Data.List.DropRight
import ObjectCache.Proofs.Text.Percent
import ObjectCache.Proofs.Text.Pieces
import ObjectCache.Url.Path

namespace ObjectCache.Url.Path

open Text

def IsPlain (s : Segment) : Prop := ∀ c ∈ s, pathKeeps c = true ∧ isSeparator true c = false

variable {segs : List Segment}

theorem chars_eq_joined (h : segs ≠ []) : chars segs = '/' :: joined '/' segs := by
  induction segs with
  | nil => exact absurd rfl h
  | cons s segs ih =>
      cases segs with
      | nil => simp [chars, joined]
      | cons t segs =>
          have hrest := ih (List.cons_ne_nil _ _)
          rw [chars] at hrest
          rw [chars, List.flatMap_cons, hrest]
          rfl

theorem chars_append (as bs : List Segment) : chars (as ++ bs) = chars as ++ chars bs :=
  List.flatMap_append

theorem IsPlain.slash_notMem {s : Segment} (h : IsPlain s) : '/' ∉ s :=
  fun hmem => absurd (h '/' hmem).2 (by decide)

theorem rdropWhile_chars (h : ∀ s ∈ segs, '/' ∉ s) :
    (chars segs).rdropWhile (fun c => c == '/') = chars (segs.rdropWhile List.isEmpty) := by
  induction segs using List.reverseRecOn with
  | nil => rfl
  | append_singleton segs s ih =>
      have hchars : chars (segs ++ [s]) = chars segs ++ '/' :: s := by simp [chars]
      rw [hchars]
      rcases List.eq_nil_or_concat s with rfl | ⟨init, c, rfl⟩
      · rw [List.rdropWhile_concat_pos (fun c => c == '/') _ _ rfl,
          List.rdropWhile_concat_pos _ _ _ List.isEmpty_nil]
        exact ih fun s hs => h s (List.mem_append_left _ hs)
      · have hc : c ≠ '/' := by
          rintro rfl
          exact h _ (List.mem_append_right _ List.mem_cons_self) (by simp)
        have hlast : chars segs ++ '/' :: init.concat c = (chars segs ++ '/' :: init) ++ [c] := by
          simp
        rw [List.rdropWhile_concat_neg _ _ _ (by simp), hchars, hlast,
          List.rdropWhile_concat_neg _ _ _ (by simpa using hc)]

theorem segments_joined (hne : segs ≠ []) (h : ∀ s ∈ segs, IsPlain s) :
    segments true (joined '/' segs) = resolve segs := by
  have hpieces : pieces (isSeparator true) (joined '/' segs) = segs :=
    pieces_joined _ rfl hne fun s hs c hc => (h s hs c hc).2
  have hencoded : segs.map (Percent.encode pathKeeps) = segs := by
    conv => rhs; rw [← List.map_id segs]
    exact List.map_congr_left fun s hs => Percent.encode_of_keep fun c hc => (h s hs c hc).1
  rw [segments, hpieces, hencoded]

structure IsSettled (s : Segment) : Prop where
  plain : IsPlain s
  notSingle : isSingleDot s = false
  notDouble : isDoubleDot s = false

theorem isSettled_nil : IsSettled [] := ⟨nofun, rfl, rfl⟩

theorem isPlain_encode {piece : List Char} (h : ∀ c ∈ piece, isSeparator true c = false) :
    IsPlain (Percent.encode pathKeeps piece) := by
  intro c hc
  rcases Percent.mem_encode hc with ⟨hkeep, hmem⟩ | rfl | hdigit
  · exact ⟨hkeep, h c hmem⟩
  · decide
  · have hall : Percent.hexDigits.all (fun c => pathKeeps c && !isSeparator true c) = true := by
      decide
    simpa using List.all_eq_true.1 hall c hdigit

theorem mem_of_mem_up {done : List Segment} {s : Segment} (h : s ∈ up done) : s ∈ done := by
  cases done with
  | nil => exact h
  | cons t done =>
      rw [up] at h
      split at h
      · exact h
      · exact List.mem_cons_of_mem _ h

theorem isSettled_of_mem_resolveFrom {done segs : List Segment} (hdone : ∀ s ∈ done, IsSettled s)
    (hsegs : ∀ s ∈ segs, IsPlain s) : ∀ s ∈ resolveFrom done segs, IsSettled s := by
  induction segs generalizing done with
  | nil =>
      intro s hs
      exact hdone s (List.mem_reverse.1 hs)
  | cons t segs ih =>
      rw [List.forall_mem_cons] at hsegs
      have hup : ∀ s ∈ up done, IsSettled s := fun s hs => hdone s (mem_of_mem_up hs)
      rw [resolveFrom]
      split
      · refine ih ?_ hsegs.2
        split
        · exact List.forall_mem_cons.2 ⟨isSettled_nil, hup⟩
        · exact hup
      · rename_i hdouble
        split
        · refine ih ?_ hsegs.2
          split
          · exact List.forall_mem_cons.2 ⟨isSettled_nil, hdone⟩
          · exact hdone
        · rename_i hsingle
          refine ih (List.forall_mem_cons.2 ⟨⟨hsegs.1, ?_, ?_⟩, hdone⟩) hsegs.2
          · simpa using hsingle
          · simpa using hdouble

theorem resolveFrom_settled {settled : List Segment} (h : ∀ s ∈ settled, IsSettled s)
    (done segs : List Segment) :
    resolveFrom done (settled ++ segs) = resolveFrom (settled.reverse ++ done) segs := by
  induction settled generalizing done with
  | nil => rfl
  | cons s settled ih =>
      rw [List.forall_mem_cons] at h
      rw [List.cons_append, resolveFrom, h.1.notDouble, h.1.notSingle, if_neg Bool.false_ne_true,
        if_neg Bool.false_ne_true, ih h.2, List.reverse_cons, List.append_assoc,
        List.singleton_append]

theorem resolveFrom_ne_nil (done : List Segment) (h : segs ≠ []) : resolveFrom done segs ≠ [] := by
  induction segs generalizing done with
  | nil => exact absurd rfl h
  | cons t segs ih =>
      cases segs with
      | nil =>
          rw [resolveFrom]
          split
          · simp [resolveFrom]
          · split
            · simp [resolveFrom]
            · simp [resolveFrom]
      | cons u segs =>
          rw [resolveFrom]
          split
          · exact ih _ (List.cons_ne_nil _ _)
          · split
            · exact ih _ (List.cons_ne_nil _ _)
            · exact ih _ (List.cons_ne_nil _ _)

end ObjectCache.Url.Path
