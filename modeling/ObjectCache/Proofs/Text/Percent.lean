import ObjectCache.Text.Percent

namespace ObjectCache.Text

theorem toNat_ofNat {n : Nat} (h : n.isValidChar) : (Char.ofNat n).toNat = n := by
  rw [Char.ofNat, dif_pos h]
  rfl

theorem forall_ascii {p : Char → Prop} (h : ∀ n : Fin 128, p (Char.ofNat n)) {c : Char}
    (hc : c.toNat < 128) : p c := by
  have hp := h ⟨c.toNat, hc⟩
  rwa [Char.ofNat_toNat] at hp

namespace Percent

def utf8 (cs : List Char) : List UInt8 := cs.flatMap String.utf8EncodeChar

@[simp] theorem utf8_append (as bs : List Char) : utf8 (as ++ bs) = utf8 as ++ utf8 bs :=
  List.flatMap_append

theorem toUTF8_ofList (cs : List Char) : (String.ofList cs).toUTF8.data.toList = utf8 cs := by
  rw [String.toUTF8_eq_toByteArray, String.toByteArray_ofList, List.utf8Encode]
  simp [utf8]

theorem utf8_toList (s : String) : utf8 s.toList = s.toUTF8.data.toList := by
  rw [← toUTF8_ofList, String.ofList_toList]

theorem utf8EncodeChar_of_lt {c : Char} (h : c.toNat < 128) :
    String.utf8EncodeChar c = [UInt8.ofNat c.toNat] := by
  have hle : c.val.toNat ≤ 127 := Nat.le_of_lt_succ h
  simp only [String.utf8EncodeChar, hle, if_true]
  rfl

theorem decode_cons_of_ne {a : UInt8} (h : a ≠ 37) (rest : List UInt8) :
    decode (a :: rest) = a :: decode rest := by
  match rest with
  | [] => rfl
  | [b] => rfl
  | h' :: l :: tail => simp [decode, escaped?, h]

theorem decode_escaped {h l x : UInt8} (hx : escaped? 37 h l = some x) (rest : List UInt8) :
    decode (37 :: h :: l :: rest) = x :: decode rest := by
  simp [decode, hx]

theorem forall_byte {p : UInt8 → Prop} (h : ∀ n : Fin 256, p (UInt8.ofNat n)) (b : UInt8) :
    p b := by
  have hb := h ⟨b.toNat, b.toNat_lt⟩
  rwa [UInt8.ofNat_toNat] at hb

theorem escaped?_digits (b : UInt8) :
    escaped? 37 (UInt8.ofNat (digitChar (b / 16)).toNat) (UInt8.ofNat (digitChar (b % 16)).toNat) =
      some b := by
  apply forall_byte (p := fun b => escaped? 37 (UInt8.ofNat (digitChar (b / 16)).toNat)
    (UInt8.ofNat (digitChar (b % 16)).toNat) = some b)
  decide +kernel

def hexDigits : List Char := "0123456789ABCDEF".toList

theorem digitChar_mem (b : UInt8) :
    digitChar (b / 16) ∈ hexDigits ∧ digitChar (b % 16) ∈ hexDigits := by
  apply forall_byte (p := fun b => digitChar (b / 16) ∈ hexDigits ∧ digitChar (b % 16) ∈ hexDigits)
  decide +kernel

theorem lt_of_mem_hexDigits : ∀ c ∈ hexDigits, c.toNat < 128 := by
  have hall : hexDigits.all (·.toNat < 128) = true := by decide
  simpa using hall

theorem decode_escape (b : UInt8) (rest : List UInt8) :
    decode (utf8 (escape b) ++ rest) = b :: decode rest := by
  obtain ⟨hhigh, hlow⟩ := digitChar_mem b
  have hbytes : utf8 (escape b) =
      [37, UInt8.ofNat (digitChar (b / 16)).toNat, UInt8.ofNat (digitChar (b % 16)).toNat] := by
    simp only [escape, utf8, List.flatMap_cons, List.flatMap_nil,
      utf8EncodeChar_of_lt (lt_of_mem_hexDigits _ hhigh),
      utf8EncodeChar_of_lt (lt_of_mem_hexDigits _ hlow)]
    rfl
  rw [hbytes]
  exact decode_escaped (escaped?_digits b) rest

theorem decode_escapes (bs rest : List UInt8) :
    decode (utf8 (bs.flatMap escape) ++ rest) = bs ++ decode rest := by
  induction bs with
  | nil => rfl
  | cons b bs ih =>
      rw [List.flatMap_cons, utf8_append, List.append_assoc, decode_escape, ih, List.cons_append]

def Keeps (keep : Char → Bool) : Prop := ∀ c, keep c = true → c.toNat < 128 ∧ c ≠ '%'

theorem ofNat_ne_of_ne {c : Char} (hlt : c.toNat < 128) (hne : c ≠ '%') :
    UInt8.ofNat c.toNat ≠ 37 := by
  intro h
  apply hne
  have hnat : c.toNat = 37 := by
    have htoNat := congrArg UInt8.toNat h
    rw [UInt8.toNat_ofNat_of_lt' (by rw [UInt8.size]; omega)] at htoNat
    exact htoNat
  rw [← Char.ofNat_toNat c, hnat]

theorem decode_encodeChar {keep : Char → Bool} (hkeep : Keeps keep) (c : Char)
    (rest : List UInt8) :
    decode (utf8 (encodeChar keep c) ++ rest) = String.utf8EncodeChar c ++ decode rest := by
  rw [encodeChar]
  split
  · rename_i hc
    obtain ⟨hlt, hne⟩ := hkeep c hc
    rw [utf8, List.flatMap_cons, List.flatMap_nil, List.append_nil, utf8EncodeChar_of_lt hlt]
    exact decode_cons_of_ne (ofNat_ne_of_ne hlt hne) rest
  · exact decode_escapes _ rest

theorem decode_encode {keep : Char → Bool} (hkeep : Keeps keep) (cs : List Char) :
    decode (utf8 (encode keep cs)) = utf8 cs := by
  induction cs with
  | nil => rfl
  | cons c cs ih =>
      rw [encode, List.flatMap_cons, utf8_append, decode_encodeChar hkeep]
      rw [encode] at ih
      rw [ih, utf8, utf8, List.flatMap_cons]

theorem decodeText?_encode {keep : Char → Bool} (hkeep : Keeps keep) (s : String) :
    decodeText? (String.ofList (encode keep s.toList)) = some s := by
  have hbytes : (⟨(decodedBytes (String.ofList (encode keep s.toList))).toArray⟩ : ByteArray) =
      s.toByteArray := by
    rw [decodedBytes, toUTF8_ofList, decode_encode hkeep, utf8_toList]
    rfl
  rw [decodeText?, hbytes, String.fromUTF8?, dif_pos s.isValidUTF8]
  rfl

theorem eq_nil_of_decode_eq_nil {bs : List UInt8} (h : decode bs = []) : bs = [] := by
  match bs with
  | [] => rfl
  | [_] => cases h
  | [_, _] => cases h
  | a :: b :: c :: tail =>
      rw [decode] at h
      split at h
      · cases h
      · cases h

theorem eq_empty_of_decodeText? {s : String} (h : decodeText? s = some "") : s = "" := by
  rw [decodeText?, String.fromUTF8?] at h
  split at h
  · have hbytes := congrArg String.toByteArray (Option.some.inj h)
    have hdecoded : decodedBytes s = [] := by
      have hlist := congrArg (fun a : ByteArray => a.data.toList) hbytes
      simpa [String.fromUTF8] using hlist
    have hutf8 : utf8 s.toList = [] := by
      rw [utf8_toList]
      exact eq_nil_of_decode_eq_nil hdecoded
    rw [← String.toList_eq_nil_iff]
    cases hs : s.toList with
    | nil => rfl
    | cons c cs =>
        rw [hs, utf8, List.flatMap_cons, List.append_eq_nil_iff] at hutf8
        exact absurd hutf8.1 String.utf8EncodeChar_ne_nil
  · cases h

theorem mem_encode {keep : Char → Bool} {cs : List Char} {c : Char} (h : c ∈ encode keep cs) :
    (keep c = true ∧ c ∈ cs) ∨ c = '%' ∨ c ∈ hexDigits := by
  obtain ⟨d, hmem, hd⟩ := List.mem_flatMap.1 h
  rw [encodeChar] at hd
  split at hd
  · rename_i hkeep
    rw [List.mem_singleton.1 hd]
    exact .inl ⟨hkeep, hmem⟩
  · obtain ⟨b, _, hb⟩ := List.mem_flatMap.1 hd
    obtain ⟨hhigh, hlow⟩ := digitChar_mem b
    rw [escape] at hb
    rcases List.mem_cons.1 hb with rfl | hb
    · exact .inr (.inl rfl)
    · rcases List.mem_cons.1 hb with rfl | hb
      · exact .inr (.inr hhigh)
      · rw [List.mem_singleton.1 hb]
        exact .inr (.inr hlow)

theorem encode_of_keep {keep : Char → Bool} {cs : List Char} (h : ∀ c ∈ cs, keep c = true) :
    encode keep cs = cs := by
  induction cs with
  | nil => rfl
  | cons c cs ih =>
      rw [List.forall_mem_cons] at h
      have hrest := ih h.2
      rw [encode] at hrest
      rw [encode, List.flatMap_cons, hrest, encodeChar, if_pos h.1, List.singleton_append]

end Percent

end ObjectCache.Text
