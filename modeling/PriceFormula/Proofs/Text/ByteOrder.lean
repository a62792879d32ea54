import Mathlib.Data.String.Basic

namespace PriceFormula.Text

def bytes (s : String) : List UInt8 := s.toUTF8.data.toList

def ByteLess (s t : String) : Prop := bytes s < bytes t

private theorem bytes_eq_flatMap (s : String) :
    bytes s = s.toList.flatMap String.utf8EncodeChar := by
  conv_lhs => rw [← s.ofList_toList]
  rw [bytes, String.toUTF8_eq_toByteArray, String.toByteArray_ofList, List.utf8Encode,
    List.toList_data_toByteArray]

private theorem byte_cons_lt {m n : Nat} {s t : List UInt8} (hn : n < 256) (hle : m ≤ n)
    (heq : m = n → s < t) : UInt8.ofNat m :: s < UInt8.ofNat n :: t := by
  rw [List.cons_lt_cons_iff]
  rcases Nat.lt_or_eq_of_le hle with h | h
  · left
    rw [UInt8.lt_iff_toNat_lt, UInt8.toNat_ofNat_of_lt' hn, UInt8.toNat_ofNat_of_lt' (h.trans hn)]
    exact h
  · exact .inr ⟨congrArg UInt8.ofNat h, heq h⟩

private theorem utf8EncodeChar_append_lt {c d : Char} (h : c < d) (s t : List UInt8) :
    String.utf8EncodeChar c ++ s < String.utf8EncodeChar d ++ t := by
  have hlt : c.toNat < d.toNat := h
  have hd : d.toNat < 1114112 := by
    rcases d.valid with hd | hd
    · exact lt_trans hd (by decide)
    · exact hd.2
  simp only [String.utf8EncodeChar, Char.toNat_val]
  -- one case for each pair of lengths; where all bytes agree, so would the characters
  split_ifs
  all_goals
    simp only [List.cons_append, List.nil_append]
    repeat refine byte_cons_lt (by omega) (by omega) fun _ => ?_
    omega

private theorem flatMap_utf8EncodeChar_lt {s t : List Char} (h : s < t) :
    s.flatMap String.utf8EncodeChar < t.flatMap String.utf8EncodeChar := by
  induction t generalizing s with
  | nil => exact absurd h (List.not_lt_nil s)
  | cons d t ih =>
    cases s with
    | nil =>
      obtain ⟨b, w, hbytes⟩ := List.exists_cons_of_ne_nil (String.utf8EncodeChar_ne_nil (c := d))
      rw [List.flatMap_nil, List.flatMap_cons, hbytes]
      exact List.nil_lt_cons b _
    | cons c s =>
      rw [List.flatMap_cons, List.flatMap_cons]
      rcases List.cons_lt_cons_iff.mp h with hchar | ⟨rfl, hrest⟩
      · exact utf8EncodeChar_append_lt hchar _ _
      · exact List.append_left_lt (ih hrest)

/-- Comparing bytes is comparing code points. -/
theorem byteLess_iff {s t : String} : ByteLess s t ↔ s < t := by
  have hmono {s t : String} (h : s < t) : ByteLess s t := by
    rw [ByteLess, bytes_eq_flatMap, bytes_eq_flatMap]
    exact flatMap_utf8EncodeChar_lt h
  refine ⟨fun h => ?_, hmono⟩
  rcases lt_trichotomy s t with hless | rfl | hgreater
  · exact hless
  · exact absurd h (List.lt_irrefl _)
  · exact absurd h (List.lt_asymm (hmono hgreater))

end PriceFormula.Text
