import ObjectCache.Proofs.Text.Percent
import ObjectCache.Text.Hex
import ObjectCache.Text.Numeral

namespace ObjectCache.Text

theorem exists_digitChar_of_mem_toDigits {base n : Nat} (hbase : 1 < base) {c : Char}
    (h : c ∈ Nat.toDigits base n) : ∃ d < base, c = Nat.digitChar d := by
  induction n using Nat.strongRecOn with
  | ind n ih =>
      rw [Nat.toDigits_eq_if hbase] at h
      split at h
      · rename_i hlt
        exact ⟨n, hlt, List.mem_singleton.1 h⟩
      · rename_i hge
        rcases List.mem_append.1 h with h | h
        · exact ih (n / base) (Nat.div_lt_self (by omega) hbase) h
        · exact ⟨n % base, Nat.mod_lt n (by omega), List.mem_singleton.1 h⟩

theorem notMem_toDigits {base n : Nat} (hbase : 1 < base) {c : Char}
    (h : ∀ d < base, Nat.digitChar d ≠ c) : c ∉ Nat.toDigits base n := by
  intro hmem
  obtain ⟨d, hd, rfl⟩ := exists_digitChar_of_mem_toDigits hbase hmem
  exact h d hd rfl

theorem isDigit_of_mem_padded {width n : Nat} {c : Char} (h : c ∈ Numeral.padded width n) :
    c.isDigit = true := by
  rcases List.mem_append.1 h with h | h
  · rw [(List.mem_replicate.1 h).2]
    rfl
  · exact Nat.isDigit_of_mem_toDigits (by decide) (by decide) h

namespace Numeral

theorem digitValue?_digitChar {d : Nat} (h : d < 16) : digitValue? (Nat.digitChar d) = some d := by
  have hall : ∀ d ∈ List.range 16, digitValue? (Nat.digitChar d) = some d := by decide
  exact hall d (List.mem_range.2 h)

theorem valueFrom?_append (base acc : Nat) (ds es : List Char) :
    valueFrom? base acc (ds ++ es) = (valueFrom? base acc ds).bind (valueFrom? base · es) := by
  induction ds generalizing acc with
  | nil => rfl
  | cons d ds ih =>
      rw [List.cons_append, valueFrom?, valueFrom?]
      split
      · split
        · exact ih _
        · rfl
      · rfl

theorem valueFrom?_digitChar {base acc d : Nat} (hd : d < base) (hbase : base ≤ 16) :
    valueFrom? base acc [Nat.digitChar d] = some (base * acc + d) := by
  rw [valueFrom?, digitValue?_digitChar (Nat.lt_of_lt_of_le hd hbase)]
  exact if_pos hd

theorem valueFrom?_toDigits {base : Nat} (hone : 1 < base) (hbase : base ≤ 16) (n : Nat) :
    valueFrom? base 0 (Nat.toDigits base n) = some n := by
  induction n using Nat.strongRecOn with
  | ind n ih =>
      rw [Nat.toDigits_eq_if hone]
      split
      · rename_i hlt
        rw [valueFrom?_digitChar hlt hbase, Nat.mul_zero, Nat.zero_add]
      · rename_i hge
        have hmod : n % base < base := Nat.mod_lt n (by omega)
        rw [valueFrom?_append, ih _ (Nat.div_lt_self (by omega) hone), Option.bind_some,
          valueFrom?_digitChar hmod hbase, Nat.div_add_mod]

theorem natural?_of_ne_nil {cs : List Char} (h : cs ≠ []) : natural? cs = valueFrom? 10 0 cs := by
  cases cs with
  | nil => exact absurd rfl h
  | cons c cs => rfl

theorem natural?_toDigits (n : Nat) : natural? (Nat.toDigits 10 n) = some n := by
  rw [natural?_of_ne_nil Nat.toDigits_ne_nil, valueFrom?_toDigits (by decide) (by decide)]

theorem isDigit_of_mem_toDigits {n : Nat} {c : Char} (h : c ∈ Nat.toDigits 10 n) :
    isDigit c = true := by
  obtain ⟨d, hd, rfl⟩ := exists_digitChar_of_mem_toDigits (by decide) h
  have hall : ∀ d ∈ List.range 10, isDigit (Nat.digitChar d) = true := by decide
  exact hall d (List.mem_range.2 hd)

theorem toDigits_eq_cons {n : Nat} (h : 0 < n) :
    ∃ c ds, Nat.toDigits 10 n = c :: ds ∧ c ≠ '0' := by
  induction n using Nat.strongRecOn with
  | ind n ih =>
      rw [Nat.toDigits_eq_if (by decide)]
      split
      · rename_i hlt
        refine ⟨_, [], rfl, ?_⟩
        have hall : ∀ d ∈ List.range 10, 0 < d → Nat.digitChar d ≠ '0' := by decide
        exact hall n (List.mem_range.2 hlt) h
      · obtain ⟨c, ds, hds, hc⟩ := ih (n / 10) (by omega) (by omega)
        rw [hds]
        exact ⟨c, _, rfl, hc⟩

theorem digitValue?_of_isDigit {c : Char} (h : c.isDigit = true) :
    digitValue? c = some (c.toNat - 48) ∧ c.toNat - 48 < 10 := by
  have hbounds : 48 ≤ c.toNat ∧ c.toNat ≤ 57 := by
    rw [Char.isDigit, Bool.and_eq_true, decide_eq_true_eq, decide_eq_true_eq] at h
    exact h
  refine ⟨?_, by omega⟩
  rw [digitValue?]
  exact if_pos hbounds

theorem isDigit_of_digitValue? {c : Char} {d : Nat} (h : digitValue? c = some d) (hd : d < 10) :
    c.isDigit = true := by
  rw [digitValue?] at h
  rw [Char.isDigit, Bool.and_eq_true, decide_eq_true_eq, decide_eq_true_eq]
  split at h
  · assumption
  · split at h
    · cases h
      omega
    · split at h
      · cases h
        omega
      · cases h

theorem valueFrom?_cons (acc : Nat) (c : Char) (cs : List Char) :
    valueFrom? 10 acc (c :: cs) =
      if c.isDigit = true then valueFrom? 10 (10 * acc + (c.toNat - 48)) cs else none := by
  rw [valueFrom?]
  split
  · rename_i d hd
    split
    · rename_i hlt
      have hdigit := isDigit_of_digitValue? hd hlt
      rw [(digitValue?_of_isDigit hdigit).1] at hd
      cases hd
      exact (if_pos hdigit).symm
    · rename_i hge
      refine (if_neg fun hdigit => ?_).symm
      obtain ⟨hvalue, hlt⟩ := digitValue?_of_isDigit hdigit
      rw [hvalue] at hd
      cases hd
      exact hge hlt
  · rename_i hnone
    refine (if_neg fun hdigit => ?_).symm
    rw [(digitValue?_of_isDigit hdigit).1] at hnone
    cases hnone

theorem valueFrom?_eq_some_iff {acc n : Nat} {cs : List Char} :
    valueFrom? 10 acc cs = some n ↔
      (∀ c ∈ cs, c.isDigit = true) ∧ Nat.ofDigitChars 10 cs acc = n := by
  induction cs generalizing acc with
  | nil => simp [valueFrom?, Nat.ofDigitChars]
  | cons c cs ih =>
      rw [valueFrom?_cons, List.forall_mem_cons, Nat.ofDigitChars_cons]
      split
      · rename_i hdigit
        rw [ih]
        simp [hdigit]
      · rename_i hdigit
        simp [hdigit]

def Writes (digits : List Char) (n : Nat) : Prop :=
  digits ≠ [] ∧ (∀ c ∈ digits, c.isDigit = true) ∧ Nat.ofDigitChars 10 digits 0 = n

theorem natural?_eq_some_iff {cs : List Char} {n : Nat} : natural? cs = some n ↔ Writes cs n := by
  rw [Writes]
  cases cs with
  | nil => simp [natural?]
  | cons c cs =>
      rw [natural?_of_ne_nil (List.cons_ne_nil c cs), valueFrom?_eq_some_iff]
      simp

theorem below_eq_some_iff {α : Type} {size : Nat} {ofNat : Nat → α} {toNat : α → Nat}
    (hlt : ∀ a, toNat a < size) (hword : ∀ a, ofNat (toNat a) = a)
    (hnat : ∀ n < size, toNat (ofNat n) = n) {n : Option Nat} {v : α} :
    (n.bind fun n => if n < size then some (ofNat n) else none) = some v ↔ n = some (toNat v) := by
  cases n with
  | none => simp
  | some n =>
      rw [Option.bind_some, Option.some_inj]
      constructor
      · intro h
        split at h
        · rename_i hn
          cases h
          exact (hnat n hn).symm
        · cases h
      · rintro rfl
        rw [if_pos (hlt v), hword]

theorem word_eq_some_iff {n : Option Nat} {v : UInt64} :
    (n.bind fun n => if n < UInt64.size then some (UInt64.ofNat n) else none) = some v ↔
      n = some v.toNat :=
  below_eq_some_iff UInt64.toNat_lt_size (fun _ => UInt64.ofNat_toNat)
    fun _ => UInt64.toNat_ofNat_of_lt'

theorem word?_eq (s : String) :
    word? s = (natural? (match s.toList with
      | '+' :: rest => rest
      | cs => cs)).bind fun n => if n < UInt64.size then some (UInt64.ofNat n) else none := by
  rw [word?]
  cases natural? _ <;> rfl

theorem word?_eq_some_iff {s : String} {v : UInt64} :
    word? s = some v ↔ ∃ digits, (s.toList = digits ∨ s.toList = '+' :: digits) ∧
      Writes digits v.toNat := by
  rw [word?_eq, word_eq_some_iff, natural?_eq_some_iff]
  split
  · rename_i rest hs
    constructor
    · exact fun h => ⟨rest, .inr hs, h⟩
    · rintro ⟨digits, rfl | hdigits, h⟩
      · rw [hs] at h
        exact absurd (h.2.1 '+' (.head _)) (by decide)
      · rw [hs, List.cons.injEq] at hdigits
        rwa [hdigits.2]
  · rename_i hs
    constructor
    · exact fun h => ⟨s.toList, .inl rfl, h⟩
    · rintro ⟨digits, rfl | hdigits, h⟩
      · exact h
      · exact absurd hdigits (hs digits)

theorem toList_toString (n : Nat) : (toString n).toList = Nat.toDigits 10 n := by
  rw [Nat.toString_eq_repr, Nat.toList_repr]

theorem word?_toString {n : Nat} {v : UInt64} : word? (toString n) = some v ↔ v.toNat = n := by
  have hplus : '+' ∉ Nat.toDigits 10 n := notMem_toDigits (by decide) (by decide)
  rw [word?_eq_some_iff, toList_toString]
  constructor
  · rintro ⟨digits, rfl | hdigits, hwrites⟩
    · rw [← natural?_eq_some_iff, natural?_toDigits] at hwrites
      exact (Option.some.inj hwrites).symm
    · rw [hdigits] at hplus
      exact absurd (.head _) hplus
  · rintro rfl
    exact ⟨_, .inl rfl, natural?_eq_some_iff.1 (natural?_toDigits _)⟩

end Numeral

theorem Hex.digit_mem (b : UInt8) :
    Hex.digit (b / 16) ∈ "0123456789abcdef".toList ∧
      Hex.digit (b % 16) ∈ "0123456789abcdef".toList := by
  apply Percent.forall_byte (p := fun b => Hex.digit (b / 16) ∈ "0123456789abcdef".toList ∧
    Hex.digit (b % 16) ∈ "0123456789abcdef".toList)
  decide +kernel

theorem Hex.mem_encode {bytes : ByteArray} {c : Char} (h : c ∈ (Hex.encode bytes).toList) :
    c ∈ "0123456789abcdef".toList := by
  rw [Hex.encode, String.toList_ofList] at h
  obtain ⟨b, _, hc⟩ := List.mem_flatMap.1 h
  obtain ⟨hhigh, hlow⟩ := Hex.digit_mem b
  rcases List.mem_cons.1 hc with rfl | hc
  · exact hhigh
  · rw [List.mem_singleton.1 hc]
    exact hlow

end ObjectCache.Text
