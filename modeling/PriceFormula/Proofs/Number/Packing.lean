import PriceFormula.Number.Parts
import PriceFormula.Proofs.Number.Nearest

/-! Bits of finite floats. Packing loses nothing of a canonical mantissa and exponent, and every
finite float other than zero is packed from such a pair. -/

namespace PriceFormula.Number

open Float.Model UnpackedFloat

/-- A mantissa and exponent in the one form that floats have: the mantissa is full, unless the
exponent is the least. -/
structure Canonical (m : ℕ) (e : ℤ) : Prop where
  lt : m < 2 ^ 53
  exponent_ge : -1074 ≤ e
  full : e ≠ -1074 → 2 ^ 52 ≤ m

def mostBinaryExponent : ℤ := 971

/-- Half a unit above the largest float, where rounding leaves the finite floats. -/
def overflowThreshold : ℚ := (2 ^ 53 - 1 / 2) * 2 ^ mostBinaryExponent

theorem two_zpow_mostBinaryExponent : (2 : ℚ) ^ mostBinaryExponent = ((2 ^ 971 : ℕ) : ℚ) := by
  rw [Nat.cast_pow]
  exact zpow_ofNat 2 971

theorem two_zpow_le_overflowThreshold {n : ℤ} (hn : n ≤ mostBinaryExponent) :
    2 ^ n ≤ overflowThreshold := calc
  (2 : ℚ) ^ n ≤ 2 ^ mostBinaryExponent := zpow_le_zpow_right₀ (by norm_num) hn
  _ ≤ overflowThreshold := le_mul_of_one_le_left (by positivity) (by norm_num)

section Fields
variable (b : BitVec 64)

private theorem toNat_unpackMantissa :
    (@unpackMantissa Format.binary64 b).toNat = b.toNat % 2 ^ 52 := by
  change (b.toNat >>> 0) % 2 ^ 52 = _
  rw [Nat.shiftRight_zero]

private theorem toNat_unpackExponent :
    (@unpackExponent Format.binary64 b).toNat = b.toNat / 2 ^ 52 % 2 ^ 11 := by
  change (b.toNat >>> 52) % 2 ^ 11 = _
  rw [Nat.shiftRight_eq_div_pow]

private theorem toNat_unpackSign : (@unpackSign Format.binary64 b).toNat = b.toNat / 2 ^ 63 := by
  change (b.toNat >>> 63) % 2 ^ 1 = _
  rw [Nat.shiftRight_eq_div_pow, Nat.mod_eq_of_lt]
  have := b.isLt
  omega

end Fields

private theorem toNat_packComponents (s : Sign) (e : BitVec 11) (m : BitVec 52) :
    (packComponents Format.binary64 s e m).toNat =
      2 ^ 52 * (2 ^ 11 * s.toBitVec.toNat + e.toNat) + m.toNat := by
  unfold packComponents
  rw [BitVec.toNat_append, BitVec.toNat_append, ← Nat.shiftLeft_add_eq_or_of_lt e.isLt,
    ← Nat.shiftLeft_add_eq_or_of_lt m.isLt, Nat.shiftLeft_eq, Nat.shiftLeft_eq, Nat.mul_comm,
    Nat.mul_comm s.toBitVec.toNat]

private theorem ofBitVec_toBitVec (s : Sign) : Sign.ofBitVec s.toBitVec = s := by
  cases s <;> rfl

private theorem toBitVec_ofBitVec (b : BitVec 1) : (Sign.ofBitVec b).toBitVec = b := by
  obtain rfl | rfl : b = 0#1 ∨ b = 1#1 := by
    have := b.isLt
    rcases Nat.lt_or_ge b.toNat 1 with h | h
    · exact .inl (BitVec.eq_of_toNat_eq (by simp; omega))
    · exact .inr (BitVec.eq_of_toNat_eq (by simp; omega))
  · rfl
  · rfl

private theorem unpackSign_packComponents (s : Sign) (e : BitVec 11) (m : BitVec 52) :
    unpackSign (packComponents Format.binary64 s e m) = s.toBitVec := by
  apply BitVec.eq_of_toNat_eq
  have hs := s.toBitVec.isLt
  have he := e.isLt
  have hm := m.isLt
  rw [toNat_unpackSign, toNat_packComponents]
  omega

private theorem packComponents_unpack (b : BitVec 64) :
    packComponents Format.binary64 (Sign.ofBitVec (@unpackSign Format.binary64 b))
      (@unpackExponent Format.binary64 b) (@unpackMantissa Format.binary64 b) = b := by
  apply BitVec.eq_of_toNat_eq
  have hb := b.isLt
  rw [toNat_packComponents, toBitVec_ofBitVec, toNat_unpackSign, toNat_unpackExponent,
    toNat_unpackMantissa]
  omega

private theorem toNat_implicit_append (m : BitVec 52) : (1#1 ++ m).toNat = 2 ^ 52 + m.toNat := by
  rw [BitVec.toNat_append, ← Nat.shiftLeft_add_eq_or_of_lt m.isLt]
  rfl

private theorem pack_finite {m : ℕ} {e : ℤ} (hm : 0 < m) (he : e ≤ mostBinaryExponent) (s : Sign) :
    pack Format.binary64 (.finite s m e hm) =
      packComponents Format.binary64 s
        (if m.log2 = 52 then BitVec.ofNat 11 (e + 1075).toNat else 0) (BitVec.ofNat 52 m) := by
  have hbias : e + Format.binary64.exponentBias + (52 : ℕ) = e + 1075 := by
    have : (Format.binary64.exponentBias : ℤ) = 1023 := by decide
    omega
  have hrange : ¬2 ^ 11 ≤ (e + 1075).toNat + 1 := by
    unfold mostBinaryExponent at he
    omega
  have hfull : m.log2 + 1 = Format.binary64.mantissaBits ↔ m.log2 = 52 := by
    have : Format.binary64.mantissaBits = 53 := by decide
    omega
  unfold UnpackedFloat.pack
  simp only [hfull, hbias]
  rw [if_neg hrange]
  split
  · rfl
  · rfl

private theorem pack_normal {m : ℕ} {e : ℤ} (hm : 0 < m) (hfull : 2 ^ 52 ≤ m) (hlt : m < 2 ^ 53)
    (he : e ≤ mostBinaryExponent) (s : Sign) :
    pack Format.binary64 (.finite s m e hm) =
      packComponents Format.binary64 s (BitVec.ofNat 11 (e + 1075).toNat) (BitVec.ofNat 52 m) := by
  have hlog : m.log2 = 52 := (Nat.log2_eq_iff hm.ne').mpr ⟨hfull, hlt⟩
  rw [pack_finite hm he, if_pos hlog]

private theorem pack_subnormal {m : ℕ} (hm : 0 < m) (hlt : m < 2 ^ 52) (s : Sign) :
    pack Format.binary64 (.finite s m (-1074) hm) =
      packComponents Format.binary64 s 0 (BitVec.ofNat 52 m) := by
  have hlog : m.log2 ≠ 52 := fun hlog => by
    have := (Nat.le_log2 hm.ne').mp hlog.ge
    omega
  rw [pack_finite hm (by decide), if_neg hlog]

section Unpack
variable {E : BitVec 11} {M : BitVec 52}

private theorem unpack_normal (hlow : 0 < E.toNat) (hhigh : E.toNat < 2047) (s : Sign)
    (hm : 0 < 2 ^ 52 + M.toNat) :
    unpack Format.binary64 (packComponents Format.binary64 s E M) =
      .finite s (2 ^ 52 + M.toNat) (E.toNat - 1075) hm := by
  have hones : E ≠ -1#11 := fun hones => by
    have := congrArg BitVec.toNat hones
    simp at this
    omega
  have hzero : E ≠ 0#11 := fun hzero => by
    have := congrArg BitVec.toNat hzero
    simp at this
    omega
  have hbias : (Format.binary64.exponentBias : ℤ) = 1023 := by decide
  unfold UnpackedFloat.unpack
  simp only [unpackMantissa_packComponents, unpackExponent_packComponents,
    unpackSign_packComponents, ofBitVec_toBitVec, if_neg hones, if_neg hzero, toNat_implicit_append,
    hbias]
  rfl

private theorem unpack_subnormal (hm : 0 < M.toNat) (s : Sign) :
    unpack Format.binary64 (packComponents Format.binary64 s 0 M) =
      .finite s M.toNat (-1074) hm := by
  have hones : (0 : BitVec 11) ≠ -1#11 := by decide
  have hzero : M ≠ 0#52 := fun hzero => by
    rw [hzero] at hm
    nomatch hm
  unfold UnpackedFloat.unpack
  simp only [unpackMantissa_packComponents, unpackExponent_packComponents,
    unpackSign_packComponents, ofBitVec_toBitVec, if_neg hones, dif_neg hzero]
  rfl

end Unpack

/-- Packing loses nothing of a canonical pair. -/
theorem unpack_pack {m : ℕ} {e : ℤ} (h : Canonical m e) (he : e ≤ mostBinaryExponent) (s : Sign)
    (hm : 0 < m) :
    unpack Format.binary64 (pack Format.binary64 (.finite s m e hm)) = .finite s m e hm := by
  have hlow := h.exponent_ge
  have hlt := h.lt
  by_cases hfull : 2 ^ 52 ≤ m
  · have hexponent : (BitVec.ofNat 11 (e + 1075).toNat).toNat = (e + 1075).toNat := by
      unfold mostBinaryExponent at he
      rw [BitVec.toNat_ofNat, Nat.mod_eq_of_lt (by omega)]
    have hmantissa : 2 ^ 52 + (BitVec.ofNat 52 m).toNat = m := by
      rw [BitVec.toNat_ofNat]
      omega
    rw [pack_normal hm hfull hlt he, unpack_normal (by omega)
      (by unfold mostBinaryExponent at he; omega) s (by omega)]
    simp only [hmantissa, hexponent]
    congr 1
    omega
  · obtain rfl : e = -1074 := by
      by_contra hne
      exact hfull (h.full hne)
    have hmantissa : (BitVec.ofNat 52 m).toNat = m := by
      rw [BitVec.toNat_ofNat, Nat.mod_eq_of_lt (by omega)]
    rw [pack_subnormal hm (by omega), unpack_subnormal (by omega)]
    simp only [hmantissa]

private theorem pack_of_unpack_zero {b : BitVec 64} {s : Sign}
    (h : unpack Format.binary64 b = .zero s) :
    pack Format.binary64 (.zero s) = b := by
  obtain ⟨t, E, M, rfl⟩ : ∃ (t : Sign) (E : BitVec 11) (M : BitVec 52),
      packComponents Format.binary64 t E M = b :=
    ⟨_, _, _, packComponents_unpack b⟩
  have hE : E.toNat < 2 ^ 11 := E.isLt
  rcases Nat.eq_zero_or_pos E.toNat with hleast | hpos
  · obtain rfl : E = 0 := BitVec.eq_of_toNat_eq hleast
    rcases Nat.eq_zero_or_pos M.toNat with hzero | hsubnormal
    · obtain rfl : M = 0 := BitVec.eq_of_toNat_eq hzero
      cases t
      · obtain rfl := UnpackedFloat.zero.inj h
        rfl
      · obtain rfl := UnpackedFloat.zero.inj h
        rfl
    · rw [unpack_subnormal hsubnormal] at h
      cases h
  by_cases hmost : E.toNat = 2047
  · obtain rfl : E = -1#11 := BitVec.eq_of_toNat_eq hmost
    unfold UnpackedFloat.unpack at h
    simp only [unpackExponent_packComponents] at h
    rw [if_pos (by decide)] at h
    split at h <;> cases h
  · rw [unpack_normal hpos (by omega) t (by omega)] at h
    cases h

private theorem canonical_of_unpack {b : BitVec 64} {s : Sign} {m : ℕ} {e : ℤ} {hm : 0 < m}
    (h : unpack Format.binary64 b = .finite s m e hm) :
    Canonical m e ∧ e ≤ mostBinaryExponent ∧ pack Format.binary64 (.finite s m e hm) = b := by
  obtain ⟨t, E, M, rfl⟩ : ∃ (t : Sign) (E : BitVec 11) (M : BitVec 52),
      packComponents Format.binary64 t E M = b :=
    ⟨_, _, _, packComponents_unpack b⟩
  have hE : E.toNat < 2 ^ 11 := E.isLt
  have hM : M.toNat < 2 ^ 52 := M.isLt
  rcases Nat.eq_zero_or_pos E.toNat with hleast | hpos
  · obtain rfl : E = 0 := BitVec.eq_of_toNat_eq hleast
    rcases Nat.eq_zero_or_pos M.toNat with hzero | hsubnormal
    · obtain rfl : M = 0 := BitVec.eq_of_toNat_eq hzero
      cases t <;> nomatch h
    · rw [unpack_subnormal hsubnormal] at h
      obtain ⟨rfl, rfl, rfl⟩ := UnpackedFloat.finite.inj h
      refine ⟨⟨by omega, le_refl _, fun h => absurd rfl h⟩, by decide, ?_⟩
      rw [pack_subnormal hm hM, BitVec.ofNat_toNat, BitVec.setWidth_eq]
  by_cases hmost : E.toNat = 2047
  · obtain rfl : E = -1#11 := BitVec.eq_of_toNat_eq hmost
    unfold UnpackedFloat.unpack at h
    simp only [unpackExponent_packComponents] at h
    rw [if_pos (by decide)] at h
    split at h <;> nomatch h
  · rw [unpack_normal hpos (by omega) t (by omega)] at h
    obtain ⟨rfl, rfl, rfl⟩ := UnpackedFloat.finite.inj h
    have hrange : (E.toNat : ℤ) - 1075 ≤ mostBinaryExponent := by
      unfold mostBinaryExponent
      omega
    have hexponent : ((E.toNat : ℤ) - 1075 + 1075).toNat = E.toNat := by omega
    have hmantissa : BitVec.ofNat 52 (2 ^ 52 + M.toNat) = M := by
      apply BitVec.eq_of_toNat_eq
      rw [BitVec.toNat_ofNat]
      omega
    refine ⟨⟨by omega, by omega, fun _ => by omega⟩, hrange, ?_⟩
    rw [pack_normal hm (by omega) (by omega) hrange, hexponent, hmantissa, BitVec.ofNat_toNat,
      BitVec.setWidth_eq]

/-- A canonical pair is its own rounding. -/
theorem rounded_canonical {m : ℕ} {e : ℤ} (h : Canonical m e) (s : Sign) (hm : 0 < m) :
    rounded s (m * 2 ^ e) = .finite s m e hm := by
  have hexact : (m : ℚ) * 2 ^ e / 2 ^ e = m := mul_div_cancel_right₀ _ (by positivity)
  have hlt := h.lt
  have hexponent : exponentOf (m * 2 ^ e) = e := by
    have hlog : Int.log 2 ((m : ℚ) * 2 ^ e) = m.log2 + e :=
      log_eq_log2_add hm.ne' hexact.ge (by rw [hexact]; exact lt_add_one _)
    have hlow := h.exponent_ge
    have hhigh := (Nat.log2_lt hm.ne').mpr hlt
    rw [exponentOf, hlog]
    by_cases he : e = -1074
    · omega
    · have := (Nat.le_log2 hm.ne').mpr (h.full he)
      omega
  have hmantissa : mantissaOf (m * 2 ^ e) = m := by
    rw [mantissaOf, hexponent, hexact, extended_natCast]
    rfl
  unfold rounded
  simp only [hmantissa, hexponent]
  rw [dif_neg hm.ne', if_neg (by omega)]

/-- Rounding gives a canonical pair or zero. -/
theorem canonical_of_rounded {q : ℚ} (hq : 0 < q) {s t : Sign} {m : ℕ} {e : ℤ} {hm : 0 < m}
    (h : rounded s q = .finite t m e hm) : Canonical m e := by
  have hlow : -1074 ≤ exponentOf q := le_max_right _ _
  have hle := mantissaOf_le q
  unfold rounded at h
  split at h
  · nomatch h
  · split at h
    · obtain ⟨-, rfl, rfl⟩ := UnpackedFloat.finite.inj h
      exact ⟨by decide, by omega, fun _ => le_refl _⟩
    · obtain ⟨-, rfl, rfl⟩ := UnpackedFloat.finite.inj h
      exact ⟨by omega, hlow, le_mantissaOf hq⟩

section Floats
variable {x : Float} {s : Sign} {m : ℕ} {e : ℤ} {hm : 0 < m}

def packed (u : UnpackedFloat) : Float := Float.ofModel (Float.Model.pack u)

theorem parts_packed (h : Canonical m e) (he : e ≤ mostBinaryExponent) :
    parts (packed (.finite s m e hm)) = .finite s m e hm :=
  unpack_pack h he s hm

/-- A float is determined by its parts, if these are finite. -/
theorem eq_packed_of_parts (h : parts x = .finite s m e hm) : x = packed (.finite s m e hm) := by
  obtain ⟨-, -, hbits⟩ := canonical_of_unpack h
  obtain ⟨⟨⟨b⟩, hvalid⟩⟩ := x
  unfold packed Float.Model.pack
  simp only [hbits]
  rfl

theorem eq_packed_of_parts_zero (h : parts x = .zero s) : x = packed (.zero s) := by
  have hbits := pack_of_unpack_zero h
  obtain ⟨⟨⟨b⟩, hvalid⟩⟩ := x
  unfold packed Float.Model.pack
  simp only [hbits]
  rfl

theorem canonical_of_parts (h : parts x = .finite s m e hm) :
    Canonical m e ∧ e ≤ mostBinaryExponent :=
  ⟨(canonical_of_unpack h).1, (canonical_of_unpack h).2.1⟩

end Floats

/-- What lies below the threshold rounds to a finite float. -/
theorem isFinite_packed_rounded {q : ℚ} (hq : 0 < q) (h : q < overflowThreshold) (s : Sign) :
    (packed (rounded s q)).isFinite = true := by
  rw [overflowThreshold] at h
  have hlarge : q < 2 ^ (1024 : ℤ) := calc
    q < (2 ^ 53 - 1 / 2) * 2 ^ mostBinaryExponent := h
    _ ≤ 2 ^ (53 : ℤ) * 2 ^ mostBinaryExponent := by gcongr; norm_num
    _ = 2 ^ (1024 : ℤ) := by rw [← zpow_add₀ two_ne_zero]; rfl
  have hlog : Int.log 2 q < 1024 :=
    (Int.lt_zpow_iff_log_lt (b := 2) (by decide) hq).mp (by exact_mod_cast hlarge)
  have hexponent : exponentOf q ≤ 971 := max_le (by omega) (by decide)
  have hfinite {m : ℕ} {e : ℤ} {hm : 0 < m} (hrounded : rounded s q = .finite s m e hm)
      (he : e ≤ 971) : (packed (rounded s q)).isFinite = true := by
    rw [hrounded]
    change (parts (packed (.finite s m e hm))).isFinite = true
    rw [parts_packed (canonical_of_rounded hq hrounded) he]
    rfl
  by_cases hzero : mantissaOf q = 0
  · have hrounded : rounded s q = .zero s := dif_pos hzero
    rw [hrounded]
    cases s <;> rfl
  by_cases hcarry : mantissaOf q = 2 ^ 53
  · refine hfinite ((dif_neg hzero).trans (if_pos hcarry)) ?_
    -- at the largest exponent there is no carry
    by_contra hcontra
    have hmost : exponentOf q = mostBinaryExponent := by
      rw [mostBinaryExponent]
      omega
    have hbelow : q / 2 ^ exponentOf q < 2 ^ 53 - 1 / 2 := by
      rw [hmost, div_lt_iff₀ (by positivity)]
      exact h
    have hhalf := abs_le.mp (abs_mantissaOf_sub_le hq)
    rw [hcarry] at hhalf
    push_cast at hhalf
    linarith
  · exact hfinite ((dif_neg hzero).trans (if_neg hcarry)) hexponent

theorem isFinite_neg {x : Float} (hx : x.isFinite = true) : (Float.neg x).isFinite = true := by
  have hneg : Float.neg x = packed (parts x).neg := rfl
  have hfinite : (parts x).isFinite = true := hx
  rw [hneg]
  cases hparts : parts x with
  | notANumber => rw [hparts] at hfinite; nomatch hfinite
  | infinity s => rw [hparts] at hfinite; nomatch hfinite
  | zero s => cases s <;> rfl
  | finite s m e hm =>
    obtain ⟨hcanonical, hexponent⟩ := canonical_of_parts hparts
    change (parts (packed (.finite (-s) m e hm))).isFinite = true
    rw [parts_packed hcanonical hexponent]
    rfl

theorem isFinite_abs {x : Float} (hx : x.isFinite = true) : x.abs.isFinite = true := by
  have habs : x.abs = packed (parts x).abs := rfl
  have hfinite : (parts x).isFinite = true := hx
  rw [habs]
  cases hparts : parts x with
  | notANumber => rw [hparts] at hfinite; cases hfinite
  | infinity s => rw [hparts] at hfinite; cases hfinite
  | zero s => cases s <;> rfl
  | finite s m e hm =>
    obtain ⟨hcanonical, hexponent⟩ := canonical_of_parts hparts
    change (parts (packed (.finite .positive m e hm))).isFinite = true
    rw [parts_packed hcanonical hexponent]
    rfl

/-- An exponent beyond the largest one packs as an infinity. -/
theorem pack_overflow {m : ℕ} {e : ℤ} (hm : 0 < m) (he : mostBinaryExponent < e) (s : Sign) :
    pack Format.binary64 (.finite s m e hm) = pack Format.binary64 (.infinity s) := by
  have hbias : e + Format.binary64.exponentBias + (52 : ℕ) = e + 1075 := by
    have : (Format.binary64.exponentBias : ℤ) = 1023 := by decide
    omega
  unfold mostBinaryExponent at he
  unfold UnpackedFloat.pack
  simp only [hbias]
  exact if_pos (by omega)

/-- What lies beyond the largest float packs as an infinity. -/
theorem packed_rounded_of_large {q : ℚ} (h : 2 ^ (1024 : ℤ) ≤ q) (s : Sign) :
    packed (rounded s q) = packed (.infinity s) := by
  have hq : 0 < q := lt_of_lt_of_le (by positivity) h
  have hlog : 1024 ≤ Int.log 2 q :=
    (Int.zpow_le_iff_le_log (b := 2) (by decide) hq).mp (by exact_mod_cast h)
  have hexponent : mostBinaryExponent < exponentOf q :=
    lt_max_of_lt_left (by rw [mostBinaryExponent]; omega)
  have hmantissa := le_mantissaOf hq (by rw [mostBinaryExponent] at hexponent; omega)
  unfold packed Float.Model.pack rounded
  rw [dif_neg (by omega)]
  split
  · simp only [pack_overflow _ (hexponent.trans (lt_add_one _))]
  · simp only [pack_overflow _ hexponent]

/-- What is less than half the smallest float rounds to zero. -/
theorem rounded_of_small {q : ℚ} (hq : 0 < q) (h : q < 2 ^ (-1075 : ℤ)) (s : Sign) :
    rounded s q = .zero s := by
  have hlog : Int.log 2 q < -1075 :=
    (Int.lt_zpow_iff_log_lt (b := 2) (by decide) hq).mp (by exact_mod_cast h)
  have hexponent : exponentOf q = -1074 := max_eq_right (by omega)
  have hhalf : 2 * (q / 2 ^ (-1074 : ℤ)) < 1 := by
    have hpow : (2 : ℚ) ^ (-1074 : ℤ) = 2 * 2 ^ (-1075 : ℤ) := by
      rw [← zpow_one_add₀ two_ne_zero]
      norm_num
    rw [hpow, ← mul_div_assoc, mul_div_mul_left _ _ two_ne_zero, div_lt_one (by positivity)]
    exact h
  have hmantissa : mantissaOf q = 0 := by
    have hnonneg : 0 ≤ q / 2 ^ (-1074 : ℤ) := by positivity
    have hfloor : ⌊q / 2 ^ (-1074 : ℤ)⌋₊ = 0 := Nat.floor_eq_zero.mpr (by linarith)
    have hdouble : ⌊2 * (q / 2 ^ (-1074 : ℤ))⌋₊ = 0 := Nat.floor_eq_zero.mpr hhalf
    have hbits (sticky : Bool) : (ExtendedMantissa.mk 0 (0 % 2 != 0) sticky).roundedMantissa = 0 := by
      cases sticky <;> rfl
    unfold mantissaOf extended
    rw [hexponent, hfloor, hdouble]
    exact hbits _
  unfold rounded
  rw [dif_pos hmantissa]

end PriceFormula.Number
