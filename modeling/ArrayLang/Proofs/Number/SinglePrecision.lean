import Mathlib
import ArrayLang.Number.Dyadic

/-!
# Single precision

Rounding to single precision gives a double that rounding again leaves alone. Finite numbers are compared in
units of the smallest positive double: a rounded number has few binary digits (`Dyadic.Fits`), and rounding
what has few digits changes its form but not its number of units. A form with a leading digit
(`Dyadic.Normal`) is determined by the number of units, and it is the one that is read off the fields of a
double.

## Main results

- `Dyadic.units_round`: rounding is exact where the digits suffice.
- `classify_toFloat`: a double is read as the number that it was made from.
- `roundToSingle_idem`: rounding to single precision twice is rounding once.
-/

namespace ArrayLang

/-! ## Digits -/

namespace Dyadic

variable {d d' : Dyadic} {precision k n : Nat} {least : Int}

theorem lt_two_pow_bitLength (n : Nat) : n < 2 ^ bitLength n := by
  unfold bitLength
  by_cases hzero : n = 0
  · simp [hzero]
  · rw [if_neg hzero]
    exact Nat.lt_log2_self

theorem two_pow_le_of_bitLength (hn : n ≠ 0) : 2 ^ (bitLength n - 1) ≤ n := by
  unfold bitLength
  rw [if_neg hn, Nat.add_sub_cancel]
  exact Nat.log2_self_le hn

theorem bitLength_pos (hn : n ≠ 0) : 0 < bitLength n := by
  unfold bitLength
  rw [if_neg hn]
  exact Nat.succ_pos _

/-- The number in units of the smallest positive double, if the exponent is not below that of the unit. -/
def units (d : Dyadic) : Nat :=
  d.mantissa * 2 ^ (d.exponent + 1074).toNat

/-- A number of units with so many binary digits before a least exponent. -/
def Fits (precision : Nat) (least : Int) (n : Nat) : Prop :=
  ∃ m k : Nat, m < 2 ^ precision ∧ least + 1074 ≤ k ∧ n = m * 2 ^ k

/-- The form that is determined by the number: it has all its digits, or the least exponent. -/
structure Normal (precision : Nat) (least : Int) (d : Dyadic) : Prop where
  mantissa_lt : d.mantissa < 2 ^ precision
  least_le : least ≤ d.exponent
  leading : d.exponent = least ∨ 2 ^ (precision - 1) ≤ d.mantissa

theorem units_eq_zero : d.units = 0 ↔ d.mantissa = 0 := by
  simp [units]

theorem Fits.mono {precision' : Nat} {least' : Int} (h : Fits precision least n)
    (hprecision : precision ≤ precision') (hleast : least' ≤ least) : Fits precision' least' n := by
  obtain ⟨m, k, hm, hk, rfl⟩ := h
  exact ⟨m, k, lt_of_lt_of_le hm (Nat.pow_le_pow_right two_pos hprecision), by omega, rfl⟩

theorem Normal.fits (h : d.Normal precision least) : Fits precision least d.units := by
  have hexponent := h.least_le
  exact ⟨d.mantissa, (d.exponent + 1074).toNat, h.mantissa_lt, by omega, rfl⟩

/-- Of two normal forms of a number, neither has the smaller exponent. -/
theorem Normal.exponent_le (h : d.Normal precision least) (h' : d'.Normal precision least)
    (hleast : -1074 ≤ least) (hunits : d.units = d'.units) (hprecision : 0 < precision) :
    d'.exponent ≤ d.exponent := by
  by_contra hlt
  have hleast' := h.least_le
  have hleading : 2 ^ (precision - 1) ≤ d'.mantissa := h'.leading.resolve_left (by omega)
  have hexponent : (d.exponent + 1074).toNat + 1 ≤ (d'.exponent + 1074).toNat := by omega
  have hbelow : d.units < 2 ^ precision * 2 ^ (d.exponent + 1074).toNat :=
    Nat.mul_lt_mul_of_pos_right h.mantissa_lt (Nat.two_pow_pos _)
  have habove : 2 ^ (precision - 1) * 2 ^ ((d.exponent + 1074).toNat + 1) ≤ d'.units :=
    Nat.mul_le_mul hleading (Nat.pow_le_pow_right two_pos hexponent)
  have hsame : 2 ^ (precision - 1) * 2 ^ ((d.exponent + 1074).toNat + 1)
      = 2 ^ precision * 2 ^ (d.exponent + 1074).toNat := by
    rw [← pow_add, ← pow_add]
    congr 1
    omega
  omega

/-- A normal form below a power of two has a small exponent. -/
theorem Normal.exponent_lt (h : d.Normal precision least) (hne : d.exponent ≠ least)
    (hsmall : d.units < 2 ^ n) (hn : n ≤ precision - 1 + k) : (d.exponent + 1074).toNat < k := by
  by_contra hlarge
  have hleading : 2 ^ (precision - 1) ≤ d.mantissa := h.leading.resolve_left hne
  have habove : 2 ^ (precision - 1) * 2 ^ k ≤ d.units :=
    Nat.mul_le_mul hleading (Nat.pow_le_pow_right two_pos (le_of_not_gt hlarge))
  rw [← pow_add] at habove
  exact absurd hsmall (not_lt_of_ge (le_trans (Nat.pow_le_pow_right two_pos hn) habove))

/-- A number has one normal form. -/
theorem Normal.eq_of_units (h : d.Normal precision least) (h' : d'.Normal precision least)
    (hleast : -1074 ≤ least) (hprecision : 0 < precision) (hsign : d.negative = d'.negative)
    (hunits : d.units = d'.units) : d = d' := by
  have hexponent : d.exponent = d'.exponent :=
    le_antisymm (h'.exponent_le h hleast hunits.symm hprecision)
      (h.exponent_le h' hleast hunits hprecision)
  have hmantissa : d.mantissa = d'.mantissa := by
    unfold units at hunits
    rw [hexponent] at hunits
    exact Nat.eq_of_mul_eq_mul_right (Nat.two_pow_pos _) hunits
  obtain ⟨negative, mantissa, exponent⟩ := d
  obtain ⟨negative', mantissa', exponent'⟩ := d'
  obtain rfl : negative = negative' := hsign
  obtain rfl : mantissa = mantissa' := hmantissa
  obtain rfl : exponent = exponent' := hexponent
  rfl

/-! ## Rounding -/

@[simp] theorem negative_round (precision : Nat) (least : Int) (d : Dyadic) :
    (d.round precision least).negative = d.negative := by
  unfold round
  dsimp only
  split <;> rfl

theorem exponent_round (precision : Nat) (least : Int) (d : Dyadic) :
    (d.round precision least).exponent
      = max (d.exponent + bitLength d.mantissa - precision) least := by
  unfold round
  dsimp only
  split <;> rfl

theorem roundHalfEven_of_dvd {num den : Nat} (h : den ∣ num) (hden : 0 < den) :
    roundHalfEven num den = num / den := by
  have hmod : num % den = 0 := Nat.mod_eq_zero_of_dvd h
  unfold roundHalfEven
  simp [hmod, hden]

theorem roundHalfEven_le (num den : Nat) : roundHalfEven num den ≤ num / den + 1 := by
  unfold roundHalfEven
  dsimp only
  split_ifs <;> omega

/-- Digits that are cut off a number that fits are zeros. -/
theorem two_pow_dvd_mantissa (hd : -1074 ≤ d.exponent) (h : Fits precision least d.units)
    (hexponent : d.exponent < max (d.exponent + bitLength d.mantissa - precision) least) :
    2 ^ (max (d.exponent + bitLength d.mantissa - precision) least - d.exponent).toNat
      ∣ d.mantissa := by
  obtain ⟨m, k, hm, hk, hunits⟩ := h
  unfold units at hunits
  by_cases hzero : d.mantissa = 0
  · rw [hzero]
    exact dvd_zero _
  have hlength := bitLength_pos hzero
  have hbelow := two_pow_le_of_bitLength hzero
  generalize bitLength d.mantissa = length at hexponent hlength hbelow ⊢
  generalize hcut : (max (d.exponent + length - precision) least - d.exponent).toNat = cut
  -- The zeros reach at least as far as the exponent of the rounded number.
  have hreach : (d.exponent + 1074).toNat + cut ≤ k := by
    by_contra hlt
    have hlarge : 2 ^ precision * 2 ^ k ≤ 2 ^ (length - 1) * 2 ^ (d.exponent + 1074).toNat := by
      rw [← pow_add, ← pow_add]
      exact Nat.pow_le_pow_right two_pos (by omega)
    have habove : 2 ^ (length - 1) * 2 ^ (d.exponent + 1074).toNat
        ≤ d.mantissa * 2 ^ (d.exponent + 1074).toNat := Nat.mul_le_mul_right _ hbelow
    have hsmall : m * 2 ^ k < 2 ^ precision * 2 ^ k :=
      Nat.mul_lt_mul_of_pos_right hm (Nat.two_pow_pos _)
    omega
  have hsplit : d.mantissa = m * 2 ^ (k - (d.exponent + 1074).toNat) := by
    have hpow : 2 ^ k = 2 ^ (k - (d.exponent + 1074).toNat) * 2 ^ (d.exponent + 1074).toNat := by
      rw [← pow_add]
      congr 1
      omega
    rw [hpow, ← mul_assoc] at hunits
    exact Nat.eq_of_mul_eq_mul_right (Nat.two_pow_pos _) hunits
  rw [hsplit]
  exact dvd_mul_of_dvd_right (pow_dvd_pow 2 (by omega)) m

/-- Rounding is exact where the digits suffice. -/
theorem units_round (hd : -1074 ≤ d.exponent) (hleast : -1074 ≤ least)
    (h : Fits precision least d.units) : (d.round precision least).units = d.units := by
  unfold units round
  dsimp only
  generalize hexponent : max (d.exponent + bitLength d.mantissa - precision) least = exponent
  by_cases hle : exponent ≤ d.exponent
  · rw [if_pos hle]
    show d.mantissa * 2 ^ (d.exponent - exponent).toNat * 2 ^ (exponent + 1074).toNat = _
    rw [mul_assoc, ← pow_add]
    congr 2
    omega
  · have hlt : d.exponent < exponent := by omega
    have hdvd := two_pow_dvd_mantissa hd h (by rwa [hexponent])
    rw [hexponent] at hdvd
    rw [if_neg hle]
    show roundHalfEven d.mantissa (2 ^ (exponent - d.exponent).toNat)
      * 2 ^ (exponent + 1074).toNat = _
    have hpow : 2 ^ (exponent + 1074).toNat
        = 2 ^ (exponent - d.exponent).toNat * 2 ^ (d.exponent + 1074).toNat := by
      rw [← pow_add]
      congr 1
      omega
    rw [roundHalfEven_of_dvd hdvd (Nat.two_pow_pos _), hpow, ← mul_assoc, Nat.div_mul_cancel hdvd]

/-- A number that fits is rounded to its normal form. -/
theorem normal_round (hprecision : 0 < precision) (hd : -1074 ≤ d.exponent)
    (hleast : -1074 ≤ least) (h : Fits precision least d.units) (hzero : d.mantissa ≠ 0) :
    (d.round precision least).Normal precision least := by
  have hexponent := exponent_round precision least d
  have hunits := units_round hd hleast h
  have hlength := bitLength_pos hzero
  have hbelow := two_pow_le_of_bitLength hzero
  have habove := lt_two_pow_bitLength d.mantissa
  generalize d.round precision least = r at hexponent hunits ⊢
  generalize bitLength d.mantissa = length at hexponent hlength hbelow habove
  unfold units at hunits
  refine ⟨?_, ?_, ?_⟩
  · have hlt : r.mantissa * 2 ^ (r.exponent + 1074).toNat
        < 2 ^ precision * 2 ^ (r.exponent + 1074).toNat := by
      calc r.mantissa * 2 ^ (r.exponent + 1074).toNat
          = d.mantissa * 2 ^ (d.exponent + 1074).toNat := hunits
        _ < 2 ^ length * 2 ^ (d.exponent + 1074).toNat :=
          Nat.mul_lt_mul_of_pos_right habove (Nat.two_pow_pos _)
        _ ≤ 2 ^ precision * 2 ^ (r.exponent + 1074).toNat := by
          rw [← pow_add, ← pow_add]
          exact Nat.pow_le_pow_right two_pos (by omega)
    exact Nat.lt_of_mul_lt_mul_right hlt
  · omega
  · by_cases heq : r.exponent = least
    · exact .inl heq
    · right
      have hle : 2 ^ (precision - 1) * 2 ^ (r.exponent + 1074).toNat
          ≤ r.mantissa * 2 ^ (r.exponent + 1074).toNat := by
        calc 2 ^ (precision - 1) * 2 ^ (r.exponent + 1074).toNat
            ≤ 2 ^ (length - 1) * 2 ^ (d.exponent + 1074).toNat := by
              rw [← pow_add, ← pow_add]
              exact Nat.pow_le_pow_right two_pos (by omega)
          _ ≤ d.mantissa * 2 ^ (d.exponent + 1074).toNat := Nat.mul_le_mul_right _ hbelow
          _ = r.mantissa * 2 ^ (r.exponent + 1074).toNat := hunits.symm
      exact Nat.le_of_mul_le_mul_right hle (Nat.two_pow_pos _)

/-- Zero is rounded to zero. -/
theorem mantissa_round_eq_zero (hzero : d.mantissa = 0) :
    (d.round precision least).mantissa = 0 := by
  unfold round
  dsimp only
  rw [hzero]
  split
  · exact Nat.zero_mul _
  · simp [roundHalfEven]

/-- A rounded number has at most one digit more than it may, which is then a power of two. -/
theorem mantissa_round_le (precision : Nat) (least : Int) (d : Dyadic) :
    (d.round precision least).mantissa ≤ 2 ^ precision := by
  have habove := lt_two_pow_bitLength d.mantissa
  unfold round
  dsimp only
  generalize bitLength d.mantissa = length at habove ⊢
  generalize hexponent : max (d.exponent + length - precision) least = exponent
  by_cases hle : exponent ≤ d.exponent
  · rw [if_pos hle]
    show d.mantissa * 2 ^ (d.exponent - exponent).toNat ≤ 2 ^ precision
    calc d.mantissa * 2 ^ (d.exponent - exponent).toNat
        ≤ 2 ^ length * 2 ^ (d.exponent - exponent).toNat := Nat.mul_le_mul_right _ habove.le
      _ ≤ 2 ^ precision := by
        rw [← pow_add]
        exact Nat.pow_le_pow_right two_pos (by omega)
  · rw [if_neg hle]
    show roundHalfEven d.mantissa (2 ^ (exponent - d.exponent).toNat) ≤ 2 ^ precision
    have hquotient : d.mantissa / 2 ^ (exponent - d.exponent).toNat < 2 ^ precision := by
      rw [Nat.div_lt_iff_lt_mul (Nat.two_pow_pos _), ← pow_add]
      exact lt_of_lt_of_le habove (Nat.pow_le_pow_right two_pos (by omega))
    exact le_trans (roundHalfEven_le _ _) hquotient

theorem fits_round (hprecision : 0 < precision) (least : Int) (d : Dyadic) :
    Fits precision least (d.round precision least).units := by
  have hexponent : least ≤ (d.round precision least).exponent := by
    rw [exponent_round]
    exact le_max_right _ _
  have hmantissa := mantissa_round_le precision least d
  unfold units
  generalize d.round precision least = r at hexponent hmantissa ⊢
  rcases hmantissa.lt_or_eq with hlt | heq
  · exact ⟨r.mantissa, (r.exponent + 1074).toNat, hlt, by omega, rfl⟩
  · refine ⟨1, precision + (r.exponent + 1074).toNat, Nat.one_lt_two_pow hprecision.ne', ?_, ?_⟩
    · omega
    · rw [heq, one_mul, pow_add]

end Dyadic

/-! ## Doubles -/

theorem toBits_ofBits {bits : UInt64} (h : bits.toNat / 2 ^ 52 % 2 ^ 11 ≠ 2047) :
    (Float.ofBits bits).toBits = bits := by
  have hvalid : Float.Model.Format.binary64.Valid bits.toBitVec := by
    refine ⟨fun hexponent _ => absurd ?_ h⟩
    have hfield := congrArg BitVec.toNat hexponent
    simpa [Float.Model.UnpackedFloat.unpackExponent, Nat.shiftRight_eq_div_pow] using hfield
  exact congrArg UInt64.ofBitVec (Float.Model.UnpackedFloat.pack_unpack_of_valid hvalid)

/-- A double is read off its fields in normal form. -/
theorem normal_of_classify {x : Float} {d : Dyadic} (h : classify x = .finite d) :
    d.Normal 53 (-1074) := by
  have hlead : pow2 52 = 2 ^ 52 := rfl
  unfold classify at h
  dsimp only at h
  rw [hlead] at h
  have hfraction : x.toBits.toNat % 2 ^ 52 < 2 ^ 52 := Nat.mod_lt _ (Nat.two_pow_pos 52)
  generalize x.toBits.toNat % 2 ^ 52 = fraction at h hfraction
  split at h
  · split at h <;> cases h
  · split at h
    · cases h
      exact ⟨by dsimp only; omega, le_refl _, .inl rfl⟩
    · cases h
      refine ⟨?_, ?_, .inr ?_⟩ <;> dsimp only <;> omega

/-- A double that is put together from fields is read as their number. -/
theorem classify_fields (negative : Bool) (field mantissa : Nat) (hfield : field ≤ 2045)
    (hmantissa : mantissa < 2 ^ 53) (hlead : field = 0 ∨ 2 ^ 52 ≤ mantissa) :
    classify (Float.ofBits (UInt64.ofNat
      ((if negative then pow2 63 else 0) + (field * pow2 52 + mantissa))))
      = .finite ⟨negative, mantissa, (field : Int) - 1074⟩ := by
  have hsign : (if negative then pow2 63 else 0) = (if negative then 2 ^ 63 else 0) := rfl
  have hpow : pow2 52 = 2 ^ 52 := rfl
  have hpow' : pow2 63 = 2 ^ 63 := rfl
  have hpow'' : pow2 11 = 2 ^ 11 := rfl
  rw [hsign, hpow]
  generalize hbits : (if negative then 2 ^ 63 else 0) + (field * 2 ^ 52 + mantissa) = bits
  have hlt : bits < 2 ^ 64 := by
    cases negative <;> simp at hbits <;> omega
  have htoNat : (UInt64.ofNat bits).toNat = bits := by
    rw [UInt64.toNat_ofNat']
    exact Nat.mod_eq_of_lt hlt
  have hexact : (Float.ofBits (UInt64.ofNat bits)).toBits = UInt64.ofNat bits := by
    refine toBits_ofBits ?_
    rw [htoNat]
    cases negative <;> simp at hbits <;> omega
  unfold classify
  rw [hexact, htoNat, hpow, hpow', hpow'']
  have hnegative : decide (2 ^ 63 ≤ bits) = negative := by
    cases negative <;> simp at hbits ⊢ <;> omega
  have hrest : bits % 2 ^ 63 = field * 2 ^ 52 + mantissa := by
    cases negative <;> simp at hbits <;> omega
  dsimp only
  rw [hnegative]
  by_cases hsmall : mantissa < 2 ^ 52
  · have hzero : field = 0 := by omega
    have hfield' : bits / 2 ^ 52 % 2 ^ 11 = 0 := by omega
    have hfraction : bits % 2 ^ 52 = mantissa := by omega
    rw [hfield', hfraction, if_neg (by decide), if_pos rfl, hzero]
    rfl
  · have hfield' : bits / 2 ^ 52 % 2 ^ 11 = field + 1 := by omega
    have hfraction : bits % 2 ^ 52 = mantissa - 2 ^ 52 := by omega
    have hwhole : 2 ^ 52 + (mantissa - 2 ^ 52) = mantissa := by omega
    have hexponent : ((field + 1 : Nat) : Int) - 1075 = field - 1074 := by omega
    rw [hfield', hfraction, if_neg (by omega), if_neg (by omega), hwhole, hexponent]

namespace Dyadic

variable {d d' : Dyadic} {n : Nat}

/-- The double only depends on the number, not on its form. -/
theorem toFloat_congr (hd : -1074 ≤ d.exponent) (hd' : -1074 ≤ d'.exponent)
    (hfits : Fits 53 (-1074) d.units) (hsign : d.negative = d'.negative)
    (hunits : d.units = d'.units) : d.toFloat = d'.toFloat := by
  unfold toFloat
  dsimp only
  by_cases hzero : d.mantissa = 0
  · have hzero' : d'.mantissa = 0 := by
      rw [← units_eq_zero, ← hunits, units_eq_zero]
      exact hzero
    rw [mantissa_round_eq_zero hzero, mantissa_round_eq_zero hzero', hsign, if_pos rfl, if_pos rfl]
  · have hzero' : d'.mantissa ≠ 0 := by
      rw [ne_eq, ← units_eq_zero, ← hunits, units_eq_zero]
      exact hzero
    have hround : d.round 53 (-1074) = d'.round 53 (-1074) := by
      have hfits' : Fits 53 (-1074) d'.units := hunits ▸ hfits
      refine (normal_round (by decide) hd (le_refl _) hfits hzero).eq_of_units
        (normal_round (by decide) hd' (le_refl _) hfits' hzero') (le_refl _) (by decide) ?_ ?_
      · simpa using hsign
      · rw [units_round hd (le_refl _) hfits, units_round hd' (le_refl _) hfits', hunits]
    rw [hround, hsign]

/-- A double is read as the number that it was made from. -/
theorem classify_toFloat (hd : -1074 ≤ d.exponent) (hfits : Fits 53 (-1074) d.units)
    (hsmall : d.units < 2 ^ n) (hn : n ≤ 2098) :
    ∃ d', classify d.toFloat = .finite d' ∧ d'.negative = d.negative ∧ d'.units = d.units := by
  unfold toFloat
  dsimp only
  by_cases hzero : d.mantissa = 0
  · rw [mantissa_round_eq_zero hzero, if_pos rfl]
    refine ⟨_, classify_fields d.negative 0 0 (by decide) (by decide)
      (.inl rfl), rfl, ?_⟩
    rw [units_eq_zero.2 hzero]
    rfl
  · have hnormal := normal_round (by decide) hd (le_refl _) hfits hzero
    have hunits := units_round hd (le_refl _) hfits
    generalize d.round 53 (-1074) = r at hnormal hunits ⊢
    have hmantissa := hnormal.mantissa_lt
    have hleast := hnormal.least_le
    -- A number below the range has an exponent field below that of infinity.
    have hfield : (r.exponent + 1074).toNat ≤ 2045 := by
      by_cases heq : r.exponent = -1074
      · rw [heq]
        decide
      · exact Nat.le_of_lt_succ (hnormal.exponent_lt heq (hunits ▸ hsmall) hn)
    have hlead : (r.exponent + 1074).toNat = 0 ∨ 2 ^ 52 ≤ r.mantissa :=
      hnormal.leading.imp_left fun h => by omega
    have hrne : r.mantissa ≠ 0 := by
      rw [ne_eq, ← units_eq_zero, hunits, units_eq_zero]
      exact hzero
    have hbits : (r.exponent + 1074).toNat * pow2 52 + r.mantissa ≤ 2047 * pow2 52 := by
      have hpow : pow2 52 = 2 ^ 52 := rfl
      rw [hpow]
      omega
    rw [if_neg hrne, Nat.min_eq_left hbits]
    refine ⟨_, classify_fields d.negative _ _ hfield hmantissa hlead, rfl, ?_⟩
    rw [← hunits]
    unfold units
    congr 2
    dsimp only
    omega

end Dyadic

/-! ## Single precision -/

namespace Dyadic

variable {d r : Dyadic} {n : Nat}

/-- A number that is rounded to the digits of single precision is too large for it. -/
def Overflows (r : Dyadic) : Prop :=
  104 < r.exponent ∨ (r.exponent = 104 ∧ 2 ^ 24 ≤ r.mantissa)

instance (r : Dyadic) : Decidable r.Overflows :=
  inferInstanceAs (Decidable (_ ∨ _))

theorem units_lt_of_not_overflows (hmantissa : r.mantissa ≤ 2 ^ 24) (h : ¬r.Overflows) :
    ∃ n ≤ 1202, r.units < 2 ^ n := by
  unfold Overflows at h
  push Not at h
  obtain ⟨hexponent, hlast⟩ := h
  have hfield : (r.exponent + 1074).toNat ≤ 1178 := by omega
  refine ⟨24 + 1178, le_refl _, ?_⟩
  generalize hn : 24 + 1178 = n
  unfold units
  by_cases heq : (r.exponent + 1074).toNat = 1178
  · calc r.mantissa * 2 ^ (r.exponent + 1074).toNat
        < 2 ^ 24 * 2 ^ (r.exponent + 1074).toNat :=
          Nat.mul_lt_mul_of_pos_right (hlast (by omega)) (Nat.two_pow_pos _)
      _ = 2 ^ n := by rw [← pow_add, heq, ← hn]
  · calc r.mantissa * 2 ^ (r.exponent + 1074).toNat
        ≤ 2 ^ 24 * 2 ^ (r.exponent + 1074).toNat := Nat.mul_le_mul_right _ hmantissa
      _ < 2 ^ n := by
        rw [← pow_add]
        exact Nat.pow_lt_pow_right (by decide) (by omega)

/-- What fits single precision and is not too large is not too large when it is rounded. -/
theorem not_overflows_round (hd : d.Normal 53 (-1074)) (hfits : Fits 24 (-149) d.units)
    (hsmall : d.units < 2 ^ n) (hn : n ≤ 1202) : ¬(d.round 24 (-149)).Overflows := by
  have hle : (d.round 24 (-149)).exponent ≤ 104 ∧ (d.round 24 (-149)).mantissa < 2 ^ 24 := by
    by_cases hzero : d.mantissa = 0
    · have hexponent : d.exponent = -1074 := by
        refine hd.leading.resolve_right ?_
        rw [hzero]
        decide
      rw [exponent_round, mantissa_round_eq_zero hzero, hzero, hexponent]
      decide
    · have hnormal := normal_round (by decide) hd.least_le (by decide) hfits hzero
      refine ⟨?_, hnormal.mantissa_lt⟩
      by_cases heq : (d.round 24 (-149)).exponent = -149
      · omega
      · have hunits := units_round hd.least_le (by decide) hfits
        have hlt := hnormal.exponent_lt (k := 1179) heq (hunits ▸ hsmall) hn
        omega
  rintro (hlarge | ⟨-, hlarge⟩) <;> omega

end Dyadic

theorem classify_signedInfinity (negative : Bool) :
    classify (signedInfinity negative) = .infinite negative := by
  cases negative <;> rfl

theorem roundToSingle_of_finite {x : Float} {d : Dyadic} (h : classify x = .finite d) :
    roundToSingle x = if (d.round 24 (-149)).Overflows then signedInfinity d.negative
      else (d.round 24 (-149)).toFloat := by
  unfold roundToSingle
  rw [h]
  rfl

theorem roundToSingle_of_not_finite {x : Float} (h : ∀ d, classify x ≠ .finite d) :
    roundToSingle x = x := by
  unfold roundToSingle
  split
  · exact absurd ‹_› (h _)
  · rfl

/-- Rounding to single precision twice is rounding once. -/
theorem roundToSingle_idem (x : Float) : roundToSingle (roundToSingle x) = roundToSingle x := by
  by_cases hx : ∃ d, classify x = .finite d
  · obtain ⟨d, hd⟩ := hx
    have hexponent : -149 ≤ (d.round 24 (-149)).exponent := by
      rw [Dyadic.exponent_round]
      exact le_max_right _ _
    have hfits : Dyadic.Fits 24 (-149) (d.round 24 (-149)).units :=
      Dyadic.fits_round (by decide) (-149) d
    have hmantissa := Dyadic.mantissa_round_le 24 (-149) d
    have hsign := Dyadic.negative_round 24 (-149) d
    rw [roundToSingle_of_finite hd]
    generalize d.round 24 (-149) = r at hexponent hfits hmantissa hsign ⊢
    by_cases hoverflow : r.Overflows
    · rw [if_pos hoverflow]
      exact roundToSingle_of_not_finite fun d' => by simp [classify_signedInfinity]
    · rw [if_neg hoverflow]
      obtain ⟨n, hn, hsmall⟩ := Dyadic.units_lt_of_not_overflows hmantissa hoverflow
      have hwide : Dyadic.Fits 53 (-1074) r.units := hfits.mono (by decide) (by decide)
      -- The double is read as the same number, which fits single precision as it is.
      obtain ⟨c, hc, hcsign, hunits⟩ := Dyadic.classify_toFloat (by omega) hwide hsmall
        (le_trans hn (by decide))
      have hnormal := normal_of_classify hc
      have hcfits : Dyadic.Fits 24 (-149) c.units := hunits ▸ hfits
      have hexact := Dyadic.units_round hnormal.least_le (by decide) hcfits
      rw [roundToSingle_of_finite hc,
        if_neg (Dyadic.not_overflows_round hnormal hcfits (hunits ▸ hsmall) hn)]
      refine Dyadic.toFloat_congr ?_ (by omega) ?_ ?_ ?_
      · rw [Dyadic.exponent_round]
        exact le_trans (by decide) (le_max_right _ _)
      · rw [hexact, hunits]
        exact hwide
      · rw [Dyadic.negative_round, hcsign]
      · rw [hexact, hunits]
  · have hsame := roundToSingle_of_not_finite fun d hd => hx ⟨d, hd⟩
    rw [hsame, hsame]

end ArrayLang
