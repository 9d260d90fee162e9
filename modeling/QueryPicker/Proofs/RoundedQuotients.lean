import Mathlib
import QueryPicker.Binary64.Basic

/-!
# Rounded quotients

A quotient of whole numbers is rounded to a mantissa of at most 53 bits times a power of two. The
power is found from the whole logarithm of the quotient, and rounding may carry the mantissa on to
the next power of two. Rounding does not carry a quotient beyond a number that has a mantissa of its
own. So what stays one unit in the last place below a whole number does so after it is rounded.
-/

namespace QueryPicker

namespace Binary64

/-- The absolute value of a finite number. -/
def magnitude (x : Binary64) : ℚ := x.parts.1 * 2 ^ x.parts.2

theorem two_zpow_eq (q : ℤ) : (2 : ℚ) ^ q = 2 ^ q.toNat / 2 ^ (-q).toNat := by
  have hsplit : q = (q.toNat : ℤ) - ((-q).toNat : ℤ) := by omega
  conv_lhs => rw [hsplit, zpow_sub₀ two_ne_zero, zpow_natCast, zpow_natCast]

theorem ratio_eq_magnitude (x : Binary64) : (x.ratio.1 : ℚ) / x.ratio.2 = x.magnitude := by
  rw [magnitude, two_zpow_eq]
  simp only [ratio, Nat.pow_eq, Nat.cast_mul, Nat.cast_pow, Nat.cast_ofNat]
  exact mul_div_assoc _ _ _

theorem ratio_den_pos (x : Binary64) : 0 < x.ratio.2 :=
  Nat.pow_pos two_pos

theorem magnitude_lt_iff {x : Binary64} {n : Nat} :
    x.magnitude < n ↔ x.ratio.1 < n * x.ratio.2 := by
  rw [← ratio_eq_magnitude, div_lt_iff₀ (Nat.cast_pos.mpr x.ratio_den_pos)]
  exact_mod_cast Iff.rfl

theorem magnitude_add_eq (x : Binary64) (n : Nat) :
    ((x.ratio.1 + n * x.ratio.2 : ℕ) : ℚ) / x.ratio.2 = x.magnitude + n := by
  have hden : (x.ratio.2 : ℚ) ≠ 0 := (Nat.cast_pos.mpr x.ratio_den_pos).ne'
  rw [Nat.cast_add, Nat.cast_mul, add_div, mul_div_cancel_right₀ _ hden, ratio_eq_magnitude]

/-- The exponent field is counted on by a mantissa of 53 bits, and once more by a mantissa that was
rounded up to the next power of two. -/
theorem magnitude_ofMagnitudeBits {e m : Nat} (he : e + 2 < 2047) (hm : m ≤ 2 ^ 53)
    (hnormal : e = 0 ∨ 2 ^ 52 ≤ m) :
    (ofMagnitudeBits false (e * 2 ^ 52 + m)).magnitude = m * 2 ^ ((e : ℤ) - 1074) := by
  have hbits : (ofMagnitudeBits false (e * 2 ^ 52 + m)).bits.toNat = e * 2 ^ 52 + m := by
    simp only [ofMagnitudeBits, Bool.false_eq_true, if_false, Nat.add_zero, UInt64.toNat_ofNat']
    omega
  rw [magnitude, parts, exponentField, fractionField, hbits]
  simp only [Nat.pow_eq]
  rcases Nat.lt_or_ge m (2 ^ 52) with hsmall | hlarge
  · obtain rfl : e = 0 := by omega
    rw [if_pos (by omega)]
    have hfraction : (0 * 2 ^ 52 + m) % 2 ^ 52 = m := by omega
    rw [hfraction]
    norm_num
  · rcases Nat.lt_or_ge m (2 ^ 53) with hless | hcarried
    · have hfield : (e * 2 ^ 52 + m) / 2 ^ 52 % 2 ^ 11 = e + 1 := by omega
      have hfraction : 2 ^ 52 + (e * 2 ^ 52 + m) % 2 ^ 52 = m := by omega
      rw [hfield, if_neg (Nat.succ_ne_zero e), hfraction]
      have hexponent : ((e + 1 : Nat) : ℤ) - 1075 = e - 1074 := by omega
      rw [hexponent]
    · obtain rfl : m = 2 ^ 53 := by omega
      have hfield : (e * 2 ^ 52 + 2 ^ 53) / 2 ^ 52 % 2 ^ 11 = e + 2 := by omega
      have hfraction : 2 ^ 52 + (e * 2 ^ 52 + 2 ^ 53) % 2 ^ 52 = 2 ^ 52 := by omega
      rw [hfield, if_neg (Nat.succ_ne_zero _), hfraction]
      have hexponent : ((e + 2 : Nat) : ℤ) - 1075 = (e - 1074) + 1 := by omega
      rw [hexponent, zpow_add_one₀ two_ne_zero]
      push_cast
      ring

theorem roundHalfEven_le {num den bound : Nat} (hden : 0 < den) (h : num ≤ bound * den) :
    roundHalfEven num den ≤ bound := by
  have hquotient : num / den ≤ bound := Nat.div_le_of_le_mul (Nat.mul_comm bound den ▸ h)
  have hdivided := Nat.div_add_mod num den
  simp only [roundHalfEven]
  rcases Nat.lt_or_eq_of_le hquotient with hless | heq
  · split_ifs <;> omega
  · have hrest : num % den = 0 := by
      rw [heq, Nat.mul_comm] at hdivided
      omega
    rw [hrest, if_pos hden]
    exact hquotient

theorem le_roundHalfEven {num den bound : Nat} (hden : 0 < den) (h : bound * den ≤ num) :
    bound ≤ roundHalfEven num den := by
  have hquotient : bound ≤ num / den := (Nat.le_div_iff_mul_le hden).mpr h
  simp only [roundHalfEven]
  split_ifs <;> omega

theorem zpow_log2_le {n : Nat} (hn : 0 < n) : (2 : ℚ) ^ (n.log2 : ℤ) ≤ n := by
  exact_mod_cast Nat.log2_self_le hn.ne'

theorem lt_zpow_log2 (n : Nat) : (n : ℚ) < 2 ^ ((n.log2 : ℤ) + 1) := by
  exact_mod_cast Nat.lt_log2_self (n := n)

/-- The logarithm of a quotient lies within one of the difference of the logarithms. -/
theorem quotient_between {num den : Nat} (hnum : 0 < num) (hden : 0 < den) {guess : ℤ}
    (hguess : (num.log2 : ℤ) - den.log2 = guess) :
    (2 : ℚ) ^ (guess - 1) ≤ num / den ∧ (num : ℚ) / den < 2 ^ (guess + 1) := by
  have hpos : (0 : ℚ) < den := Nat.cast_pos.mpr hden
  rw [le_div_iff₀ hpos, div_lt_iff₀ hpos]
  constructor
  · calc (2 : ℚ) ^ (guess - 1) * den ≤ 2 ^ (guess - 1) * 2 ^ ((den.log2 : ℤ) + 1) :=
          mul_le_mul_of_nonneg_left (lt_zpow_log2 den).le (by positivity)
      _ = 2 ^ (num.log2 : ℤ) := by
          rw [← zpow_add₀ two_ne_zero]
          congr 1
          omega
      _ ≤ num := zpow_log2_le hnum
  · calc (num : ℚ) < 2 ^ ((num.log2 : ℤ) + 1) := lt_zpow_log2 num
      _ = 2 ^ (guess + 1) * 2 ^ (den.log2 : ℤ) := by
          rw [← zpow_add₀ two_ne_zero]
          congr 1
          omega
      _ ≤ 2 ^ (guess + 1) * den :=
          mul_le_mul_of_nonneg_left (zpow_log2_le hden) (by positivity)

theorem floorLog2_spec {num den : Nat} (hnum : 0 < num) (hden : 0 < den) :
    (2 : ℚ) ^ floorLog2 num den ≤ num / den ∧ (num : ℚ) / den < 2 ^ (floorLog2 num den + 1) := by
  have hpos : (0 : ℚ) < den := Nat.cast_pos.mpr hden
  generalize hguess : (num.log2 : ℤ) - den.log2 = guess
  obtain ⟨hlow, hhigh⟩ := quotient_between hnum hden hguess
  have htest : num * 2 ^ (-guess).toNat < den * 2 ^ guess.toNat ↔
      (num : ℚ) / den < 2 ^ guess := by
    rw [two_zpow_eq, div_lt_div_iff₀ hpos (by positivity), mul_comm _ (den : ℚ)]
    exact_mod_cast Iff.rfl
  simp only [floorLog2, hguess, Nat.pow_eq, htest]
  split_ifs with h
  · exact ⟨hlow, by rwa [sub_add_cancel]⟩
  · exact ⟨not_lt.mp h, hhigh⟩

/-- A quotient of whole numbers that is scaled by a power of two. -/
theorem scaled_le_iff {num den : Nat} (hden : 0 < den) (q : ℤ) (bound : Nat) :
    num * 2 ^ (-q).toNat ≤ bound * (den * 2 ^ q.toNat) ↔ (num : ℚ) / den ≤ bound * 2 ^ q := by
  have hpos : (0 : ℚ) < den := Nat.cast_pos.mpr hden
  rw [two_zpow_eq, mul_div_assoc', div_le_div_iff₀ hpos (by positivity), mul_assoc,
    mul_comm _ (den : ℚ)]
  exact_mod_cast Iff.rfl

theorem le_scaled_iff {num den : Nat} (hden : 0 < den) (q : ℤ) (bound : Nat) :
    bound * (den * 2 ^ q.toNat) ≤ num * 2 ^ (-q).toNat ↔ bound * 2 ^ q ≤ (num : ℚ) / den := by
  have hpos : (0 : ℚ) < den := Nat.cast_pos.mpr hden
  rw [two_zpow_eq, mul_div_assoc', div_le_div_iff₀ (by positivity) hpos, mul_assoc,
    mul_comm _ (den : ℚ)]
  exact_mod_cast Iff.rfl

/-- The mantissa to which a quotient is rounded has 53 bits, unless all numbers around it have the
least exponent. -/
theorem magnitude_ofRatio {num den : Nat} (hnum : 0 < num) (hden : 0 < den)
    (hfinite : floorLog2 num den < 1023) {q : ℤ} (hq : max (floorLog2 num den - 52) (-1074) = q) :
    (ofRatio false num den).magnitude =
      roundHalfEven (num * 2 ^ (-q).toNat) (den * 2 ^ q.toNat) * 2 ^ q := by
  obtain ⟨hlow, hhigh⟩ := floorLog2_spec hnum hden
  have hpos : 0 < den * 2 ^ q.toNat := by positivity
  have hm : roundHalfEven (num * 2 ^ (-q).toNat) (den * 2 ^ q.toNat) ≤ 2 ^ 53 := by
    refine roundHalfEven_le hpos ((scaled_le_iff hden q _).mpr (hhigh.le.trans ?_))
    rw [Nat.cast_pow, Nat.cast_ofNat, ← zpow_natCast, ← zpow_add₀ two_ne_zero]
    exact zpow_le_zpow_right₀ one_le_two (by omega)
  have hnormal : (q + 1074).toNat = 0 ∨
      2 ^ 52 ≤ roundHalfEven (num * 2 ^ (-q).toNat) (den * 2 ^ q.toNat) := by
    rcases Int.lt_or_le (-1074) q with habove | hbelow
    · refine Or.inr (le_roundHalfEven hpos ((le_scaled_iff hden q _).mpr (le_trans ?_ hlow)))
      rw [Nat.cast_pow, Nat.cast_ofNat, ← zpow_natCast, ← zpow_add₀ two_ne_zero]
      exact zpow_le_zpow_right₀ one_le_two (by omega)
    · exact Or.inl (by omega)
  simp only [ofRatio, if_neg hnum.ne', Nat.pow_eq, hq]
  generalize roundHalfEven (num * 2 ^ (-q).toNat) (den * 2 ^ q.toNat) = m at hm hnormal ⊢
  rw [if_neg (by omega), magnitude_ofMagnitudeBits (by omega) hm hnormal]
  congr 2
  omega

/-- Rounding does not carry a number beyond one that has at most 53 bits down from the power of two
above both. -/
theorem magnitude_ofRatio_le {num den bound : Nat} {e : ℤ} (hden : 0 < den) (he : -1022 ≤ e)
    (hfinite : e < 1023) (hlt : (num : ℚ) / den < 2 ^ (e + 1))
    (hle : (num : ℚ) / den ≤ bound * 2 ^ (e - 52)) :
    (ofRatio false num den).magnitude ≤ bound * 2 ^ (e - 52) := by
  rcases Nat.eq_zero_or_pos num with rfl | hnum
  · have hzero := magnitude_ofMagnitudeBits (e := 0) (m := 0) (by decide) (by decide) (Or.inl rfl)
    rw [Nat.zero_mul, Nat.zero_add, Nat.cast_zero, zero_mul] at hzero
    rw [ofRatio, if_pos rfl, zero, hzero]
    positivity
  have hfloor : floorLog2 num den ≤ e :=
    Int.lt_add_one_iff.mp
      ((zpow_lt_zpow_iff_right₀ one_lt_two).mp ((floorLog2_spec hnum hden).1.trans_lt hlt))
  rw [magnitude_ofRatio hnum hden (by omega) rfl]
  generalize hq : max (floorLog2 num den - 52) (-1074) = q
  have hscale : ((bound * 2 ^ (e - 52 - q).toNat : ℕ) : ℚ) * 2 ^ q = bound * 2 ^ (e - 52) := by
    rw [Nat.cast_mul, Nat.cast_pow, Nat.cast_ofNat, ← zpow_natCast, mul_assoc,
      ← zpow_add₀ two_ne_zero]
    congr 2
    omega
  have hbound : roundHalfEven (num * 2 ^ (-q).toNat) (den * 2 ^ q.toNat) ≤
      bound * 2 ^ (e - 52 - q).toNat :=
    roundHalfEven_le (by positivity) ((scaled_le_iff hden q _).mpr (hle.trans_eq hscale.symm))
  rw [← hscale]
  exact mul_le_mul_of_nonneg_right (Nat.cast_le.mpr hbound) (by positivity)

/-- Rounding leaves the distance of one unit in the last place below a whole number. -/
theorem magnitude_ofRatio_le_sub {num den n e : Nat} (hden : 0 < den) (hn : 0 < n)
    (hne : n ≤ 2 ^ e) (he : e ≤ 53) (h : (num : ℚ) / den ≤ n - 2 ^ ((e : ℤ) - 53)) :
    (ofRatio false num den).magnitude ≤ n - 2 ^ ((e : ℤ) - 53) := by
  have hexponent : (e : ℤ) - 1 - 52 = e - 53 := by omega
  have hunits : ((n * 2 ^ (53 - e) - 1 : ℕ) : ℚ) * 2 ^ ((e : ℤ) - 53) =
      n - 2 ^ ((e : ℤ) - 53) := by
    have hone : (2 : ℚ) ^ (53 - e) * 2 ^ ((e : ℤ) - 53) = 1 := by
      rw [← zpow_natCast, ← zpow_add₀ two_ne_zero]
      exact (congrArg _ (by omega)).trans (zpow_zero _)
    rw [Nat.cast_pred (by positivity), Nat.cast_mul, Nat.cast_pow, Nat.cast_ofNat, sub_mul,
      mul_assoc, hone, mul_one, one_mul]
  have hbelow : (num : ℚ) / den < 2 ^ ((e : ℤ) - 1 + 1) := by
    have hpower : (n : ℚ) ≤ 2 ^ e := by exact_mod_cast hne
    have hunit : (0 : ℚ) < 2 ^ ((e : ℤ) - 53) := by positivity
    rw [sub_add_cancel, zpow_natCast]
    linarith
  rw [← hunits, ← hexponent] at h ⊢
  exact magnitude_ofRatio_le hden (by omega) (by omega) hbelow h

end Binary64

end QueryPicker
