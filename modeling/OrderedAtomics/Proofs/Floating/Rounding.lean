import Mathlib.Algebra.Order.Field.Power
import Mathlib.Data.Rat.Cast.Order
import Mathlib.Tactic.FieldSimp
import Mathlib.Tactic.Linarith
import Mathlib.Tactic.Positivity
import Mathlib.Tactic.Ring
import OrderedAtomics.Floating

/-! Rounding to the nearest floating-point value. The words of the values that are not negative are
their magnitudes, which have the order of the values. A quotient is rounded to a magnitude or to a lower
one if it is below the middle between that magnitude and the next, or on the middle and the mantissa is
even. That rounding keeps the order and what is rounded to a given value both follow. -/

namespace OrderedAtomics

/-! ### Quotients -/

theorem zpow_eq_div (b : ℚ) (e : ℤ) : b ^ e = b ^ e.toNat / b ^ (-e).toNat := by
  rcases Int.le_total 0 e with up | down
  · rw [show (-e).toNat = 0 by omega, pow_zero, div_one, ← zpow_natCast, Int.toNat_of_nonneg up]
  · rw [show e.toNat = 0 by omega, pow_zero, one_div, ← zpow_natCast, ← zpow_neg,
      Int.toNat_of_nonneg (by omega), neg_neg]

/-- Half of the quotients between two naturals are rounded down. -/
theorem roundDiv_le_iff {num den n : ℕ} (positive : 0 < den) :
    roundDiv num den ≤ n ↔ (num / den : ℚ) < n + 1 / 2 ∨ (num / den : ℚ) = n + 1 / 2 ∧ Even n := by
  have positive' : (0 : ℚ) < den := by exact_mod_cast positive
  have below : (num / den : ℚ) < n + 1 / 2 ↔ 2 * num < 2 * (den * n) + den := by
    rw [div_lt_iff₀ positive', ← Nat.cast_lt (α := ℚ)]
    push_cast
    constructor <;> intro h <;> linarith
  have middle : (num / den : ℚ) = n + 1 / 2 ↔ 2 * num = 2 * (den * n) + den := by
    rw [div_eq_iff positive'.ne', ← Nat.cast_inj (R := ℚ)]
    push_cast
    constructor <;> intro h <;> linarith
  rw [below, middle, Nat.even_iff]
  have split := Nat.div_add_mod num den
  have rest := Nat.mod_lt num positive
  unfold roundDiv
  dsimp only
  rcases Nat.lt_trichotomy (num / den) n with lower | same | higher
  · have step := Nat.mul_le_mul_left den (Nat.succ_le_of_lt lower)
    rw [Nat.mul_succ] at step
    split_ifs <;> omega
  · rw [same] at split ⊢
    split_ifs <;> omega
  · have step := Nat.mul_le_mul_left den (Nat.succ_le_of_lt higher)
    rw [Nat.mul_succ] at step
    split_ifs <;> omega

namespace FloatFormat

variable {f : FloatFormat} {num den num' den' : ℕ}

theorem le_quotient_iff (positive : 0 < den) (e : ℤ) :
    den * 2 ^ e.toNat ≤ num * 2 ^ (-e).toNat ↔ (2 : ℚ) ^ e ≤ num / den := by
  have positive' : (0 : ℚ) < den := by exact_mod_cast positive
  rw [zpow_eq_div 2, div_le_div_iff₀ (by positivity) positive', ← Nat.cast_le (α := ℚ)]
  push_cast
  rw [mul_comm (den : ℚ)]

/-- The leading exponent is that of the power of two at or below the quotient. -/
theorem leadingExponent_spec (some : 0 < num) (positive : 0 < den) :
    (2 : ℚ) ^ leadingExponent num den ≤ num / den ∧
      (num / den : ℚ) < 2 ^ (leadingExponent num den + 1) := by
  have positive' : (0 : ℚ) < den := by exact_mod_cast positive
  have two (a b : ℕ) : (2 : ℚ) ^ ((a : ℤ) - b) = 2 ^ a / 2 ^ b := by
    rw [zpow_sub₀ two_ne_zero, zpow_natCast, zpow_natCast]
  have numLow : (2 : ℚ) ^ num.log2 ≤ num := by exact_mod_cast Nat.log2_self_le some.ne'
  have numHigh : (num : ℚ) < 2 ^ (num.log2 + 1) := by exact_mod_cast Nat.lt_log2_self
  have denLow : (2 : ℚ) ^ den.log2 ≤ den := by exact_mod_cast Nat.log2_self_le positive.ne'
  have denHigh : (den : ℚ) < 2 ^ (den.log2 + 1) := by exact_mod_cast Nat.lt_log2_self
  unfold leadingExponent
  dsimp only
  simp only [Nat.pow_eq, le_quotient_iff positive]
  split_ifs with reached
  · refine ⟨reached, ?_⟩
    rw [show (num.log2 : ℤ) - den.log2 + 1 = ((num.log2 + 1 : ℕ) : ℤ) - den.log2 by push_cast; ring, two]
    exact (div_lt_div_of_pos_right numHigh positive').trans_le
      (div_le_div_of_nonneg_left (by positivity) (by positivity) denLow)
  · refine ⟨?_, by rw [sub_add_cancel]; exact not_le.mp reached⟩
    rw [show (num.log2 : ℤ) - den.log2 - 1 = (num.log2 : ℤ) - ((den.log2 + 1 : ℕ) : ℤ) by push_cast; ring,
      two]
    exact (div_le_div_of_nonneg_left (by positivity) positive' denHigh.le).trans
      (div_le_div_of_nonneg_right numLow positive'.le)

/-! ### Magnitudes -/

/-- A magnitude and the mantissa and exponent of its value. -/
structure Spells (f : FloatFormat) (magnitude mantissa : ℕ) (exponent : ℤ) : Prop where
  least : f.leastExponent ≤ exponent
  magnitude : magnitude = (exponent - f.leastExponent).toNat * 2 ^ f.fractionBits + mantissa
  below : mantissa < 2 ^ (f.fractionBits + 1)
  /-- Only the values with the least exponent may have a small mantissa. -/
  full : f.leastExponent < exponent → 2 ^ f.fractionBits ≤ mantissa

theorem exists_spells (f : FloatFormat) (magnitude : ℕ) : ∃ m q, f.Spells magnitude m q := by
  have unit : 0 < 2 ^ f.fractionBits := Nat.two_pow_pos _
  have split := Nat.div_add_mod magnitude (2 ^ f.fractionBits)
  have rest := Nat.mod_lt magnitude unit
  rcases Nat.eq_zero_or_pos (magnitude / 2 ^ f.fractionBits) with none | some
  · rw [none] at split
    exact ⟨magnitude, f.leastExponent, le_rfl, by simp, by rw [pow_succ]; omega,
      fun h => absurd h (lt_irrefl _)⟩
  · refine ⟨magnitude % 2 ^ f.fractionBits + 2 ^ f.fractionBits,
      f.leastExponent + (magnitude / 2 ^ f.fractionBits - 1 : ℕ), by omega, ?_, by rw [pow_succ]; omega,
      fun _ => Nat.le_add_left _ _⟩
    obtain ⟨e, exponent⟩ := Nat.exists_eq_succ_of_ne_zero some.ne'
    rw [exponent] at split ⊢
    rw [add_sub_cancel_left, Int.toNat_natCast, Nat.succ_sub_one]
    rw [Nat.mul_succ] at split
    rw [Nat.mul_comm e]
    omega

namespace Spells

variable {M M' m m' : ℕ} {q q' : ℤ}

theorem lt_of_exponent_lt (h : f.Spells M m q) (h' : f.Spells M' m' q') (lower : q < q') : M < M' := by
  have least := h.least
  have below := h.below
  have full := h'.full (least.trans_lt lower)
  have step := Nat.mul_le_mul_right (2 ^ f.fractionBits)
    (show (q - f.leastExponent).toNat + 1 ≤ (q' - f.leastExponent).toNat by omega)
  rw [Nat.succ_mul] at step
  rw [pow_succ] at below
  rw [h.magnitude, h'.magnitude]
  omega

/-- The values have the order of the magnitudes. -/
theorem value_le (h : f.Spells M m q) (h' : f.Spells M' m' q') (le : M ≤ M') :
    (m * 2 ^ q : ℚ) ≤ m' * 2 ^ q' := by
  rcases lt_trichotomy q q' with lower | rfl | higher
  · have below := h.below
    have full := h'.full (h.least.trans_lt lower)
    rw [pow_succ] at below
    have mantissa : (m : ℚ) ≤ m' * 2 := by exact_mod_cast (show m ≤ m' * 2 by omega)
    calc (m * 2 ^ q : ℚ) ≤ m' * 2 * 2 ^ q := by gcongr
      _ = m' * 2 ^ (q + 1) := by rw [zpow_add_one₀ two_ne_zero]; ring
      _ ≤ m' * 2 ^ q' := by gcongr; exacts [one_le_two, lower]
  · rw [h.magnitude, h'.magnitude] at le
    have mantissa : (m : ℚ) ≤ m' := by exact_mod_cast Nat.le_of_add_le_add_left le
    gcongr
  · exact absurd (h'.lt_of_exponent_lt h higher) (Nat.not_lt.mpr le)

end Spells

/-! ### Rounding -/

/-- The mantissa of a quotient on a grid of powers of two, rounded. -/
theorem mantissa_le_iff (positive : 0 < den) (e : ℤ) (n : ℕ) :
    roundDiv (num * 2 ^ (-e).toNat) (den * 2 ^ e.toNat) ≤ n ↔
      (num / den : ℚ) < (n + 1 / 2) * 2 ^ e ∨ (num / den : ℚ) = (n + 1 / 2) * 2 ^ e ∧ Even n := by
  have grid : ((num * 2 ^ (-e).toNat : ℕ) / (den * 2 ^ e.toNat : ℕ) : ℚ) = num / den / 2 ^ e := by
    rw [zpow_eq_div 2]
    push_cast
    field_simp
  rw [roundDiv_le_iff (by positivity), grid, div_lt_iff₀ (by positivity), div_eq_iff (by positivity)]

/-- Rounding does not lead across a point of the grid. -/
theorem mantissa_le (positive : 0 < den) {e : ℤ} {n : ℕ} (le : (num / den : ℚ) ≤ n * 2 ^ e) :
    roundDiv (num * 2 ^ (-e).toNat) (den * 2 ^ e.toNat) ≤ n := by
  refine (mantissa_le_iff positive e n).mpr (.inl (le.trans_lt ?_))
  gcongr
  linarith

theorem le_mantissa (positive : 0 < den) {e : ℤ} {n : ℕ} (le : (n * 2 ^ e : ℚ) ≤ num / den) :
    n ≤ roundDiv (num * 2 ^ (-e).toNat) (den * 2 ^ e.toNat) := by
  cases n with
  | zero => exact Nat.zero_le _
  | succ n =>
    by_contra less
    have under : ((n : ℚ) + 1 / 2) * 2 ^ e < num / den := by
      refine lt_of_lt_of_le ?_ le
      push_cast
      gcongr
      linarith
    rcases (mantissa_le_iff positive e n).mp (Nat.lt_succ_iff.mp (Nat.not_le.mp less)) with less | same
    · exact lt_asymm less under
    · exact under.ne' same.1

/-- A quotient is rounded to a magnitude or to a lower one if it is below the middle between that one and
the next, or on the middle and the mantissa is even. -/
theorem nearestMagnitude_le_iff {M m : ℕ} {q : ℤ} (h : f.Spells M m q) (finite : M < f.infinityBits)
    (positive : 0 < den) :
    f.nearestMagnitude num den ≤ M ↔
      (num / den : ℚ) < (m + 1 / 2) * 2 ^ q ∨ (num / den : ℚ) = (m + 1 / 2) * 2 ^ q ∧ Even m := by
  unfold nearestMagnitude
  split_ifs with none
  · rw [none, Nat.cast_zero, zero_div]
    exact iff_of_true (Nat.zero_le M) (.inl (by positivity))
  dsimp only
  rw [min_le_iff, or_iff_right (Nat.not_le.mpr finite)]
  simp only [Nat.pow_eq]
  obtain ⟨low, high⟩ := leadingExponent_spec (Nat.pos_of_ne_zero none) positive
  generalize leadingExponent num den = lead at low high
  set e := max f.leastExponent (lead - f.fractionBits) with exponent
  have least := h.least
  have below := h.below
  rw [pow_succ] at below
  rcases lt_trichotomy e q with lower | rfl | higher
  · -- the quotient is below all values with the exponent of the given one
    have small : (num / den : ℚ) < (2 ^ (f.fractionBits + 1) : ℕ) * 2 ^ e := by
      rw [Nat.cast_pow, Nat.cast_ofNat, ← zpow_natCast, ← zpow_add₀ two_ne_zero]
      exact high.trans_le (zpow_le_zpow_right₀ one_le_two (by push_cast; omega))
    have full := h.full (lt_of_le_of_lt (le_max_left _ _) lower)
    have full' : (2 : ℚ) ^ f.fractionBits ≤ m := by exact_mod_cast full
    refine iff_of_true ?_ (.inl ?_)
    · have mantissa := mantissa_le positive small.le
      have step := Nat.mul_le_mul_right (2 ^ f.fractionBits)
        (show (e - f.leastExponent).toNat + 1 ≤ (q - f.leastExponent).toNat by omega)
      rw [Nat.succ_mul] at step
      rw [pow_succ] at mantissa
      rw [h.magnitude]
      omega
    · calc (num / den : ℚ) < (2 ^ (f.fractionBits + 1) : ℕ) * 2 ^ e := small
        _ = 2 ^ f.fractionBits * 2 ^ (e + 1) := by rw [zpow_add_one₀ two_ne_zero]; push_cast; ring
        _ ≤ m * 2 ^ q := by gcongr; exacts [one_le_two, lower]
        _ ≤ (m + 1 / 2) * 2 ^ q := by gcongr; linarith
  · rw [h.magnitude, Nat.add_le_add_iff_left]
    exact mantissa_le_iff positive e m
  · -- the quotient is above all values with the exponent of the given one
    have large : ((2 ^ f.fractionBits : ℕ) * 2 ^ e : ℚ) ≤ num / den := by
      have reached : e = lead - f.fractionBits := by omega
      rw [Nat.cast_pow, Nat.cast_ofNat, ← zpow_natCast, ← zpow_add₀ two_ne_zero, reached, add_sub_cancel]
      exact low
    have below' : (m : ℚ) + 1 ≤ (2 ^ f.fractionBits : ℕ) * 2 := by exact_mod_cast below
    have above : ((m : ℚ) + 1 / 2) * 2 ^ q < num / den := by
      calc ((m : ℚ) + 1 / 2) * 2 ^ q < (2 ^ f.fractionBits : ℕ) * 2 * 2 ^ q := by gcongr; linarith
        _ = (2 ^ f.fractionBits : ℕ) * 2 ^ (q + 1) := by rw [zpow_add_one₀ two_ne_zero]; ring
        _ ≤ (2 ^ f.fractionBits : ℕ) * 2 ^ e := by gcongr; exacts [one_le_two, higher]
        _ ≤ num / den := large
    refine iff_of_false (Nat.not_le.mpr ?_) (not_or.mpr ⟨above.le.not_gt, fun same => above.ne' same.1⟩)
    have mantissa := le_mantissa positive large
    have step := Nat.mul_le_mul_right (2 ^ f.fractionBits)
      (show (q - f.leastExponent).toNat + 1 ≤ (e - f.leastExponent).toNat by omega)
    rw [Nat.succ_mul] at step
    rw [h.magnitude]
    omega

theorem nearestMagnitude_le_infinityBits : f.nearestMagnitude num den ≤ f.infinityBits := by
  unfold nearestMagnitude
  split_ifs
  · exact Nat.zero_le _
  · exact min_le_left _ _

theorem nearestMagnitude_mono (positive : 0 < den) (positive' : 0 < den')
    (le : (num / den : ℚ) ≤ num' / den') : f.nearestMagnitude num den ≤ f.nearestMagnitude num' den' := by
  rcases Nat.lt_or_ge (f.nearestMagnitude num' den') f.infinityBits with finite | infinite
  · obtain ⟨m, q, spells⟩ := f.exists_spells (f.nearestMagnitude num' den')
    rw [nearestMagnitude_le_iff spells finite positive]
    rcases (nearestMagnitude_le_iff spells finite positive').mp le_rfl with less | ⟨same, even⟩
    · exact .inl (le.trans_lt less)
    · exact (le.trans_eq same).lt_or_eq.imp_right fun same => ⟨same, even⟩
  · exact nearestMagnitude_le_infinityBits.trans infinite

/-! ### What is rounded to a value -/

variable {M m : ℕ} {q : ℤ}

/-- The middle between a value and the one before it. At a power of two that one is only half as far away
as the one after it, unless the value has the least exponent. -/
def lowMiddle (f : FloatFormat) (m : ℕ) (q : ℤ) : ℚ :=
  if m = 2 ^ f.fractionBits ∧ f.leastExponent < q then (m - 1 / 4) * 2 ^ q else (m - 1 / 2) * 2 ^ q

/-- The quotient lies between the middles around a value, or on one of them and the mantissa is even. -/
structure Near (f : FloatFormat) (m : ℕ) (q : ℤ) (x : ℚ) : Prop where
  low : f.lowMiddle m q < x ∨ f.lowMiddle m q = x ∧ Even m
  high : x < (m + 1 / 2) * 2 ^ q ∨ x = (m + 1 / 2) * 2 ^ q ∧ Even m

namespace Near

variable {x : ℚ}

theorem lowMiddle_le (near : f.Near m q x) : f.lowMiddle m q ≤ x := near.low.elim le_of_lt (·.1.le)

theorem le_high (near : f.Near m q x) : x ≤ (m + 1 / 2) * 2 ^ q := near.high.elim le_of_lt (·.1.le)

theorem half_unit_le (near : f.Near m q x) (some : 0 < m) : (2 : ℚ) ^ q / 2 ≤ x := by
  have unit : (0 : ℚ) < 2 ^ q := by positivity
  have mantissa : (1 : ℚ) ≤ m := by exact_mod_cast some
  refine le_trans ?_ near.lowMiddle_le
  unfold lowMiddle
  split_ifs <;> nlinarith

theorem le_of_mantissa_lt {n : ℕ} (near : f.Near m q x) (below : m < n) : x ≤ n * 2 ^ q := by
  have mantissa : (m : ℚ) + 1 ≤ n := by exact_mod_cast below
  refine near.le_high.trans ?_
  gcongr
  linarith

end Near

/-- The value before, and where the middle to it is. -/
theorem Spells.pred (h : f.Spells M m q) (some : 0 < m) :
    ∃ m' q', f.Spells (M - 1) m' q' ∧ ((m' : ℚ) + 1 / 2) * 2 ^ q' = f.lowMiddle m q ∧
      (Even m → ¬ Even m') := by
  have least := h.least
  have below := h.below
  have magnitude := h.magnitude
  unfold lowMiddle
  split_ifs with narrow
  · obtain ⟨rfl, higher⟩ := narrow
    have unit : 0 < 2 ^ (f.fractionBits + 1) := Nat.two_pow_pos _
    refine ⟨2 ^ (f.fractionBits + 1) - 1, q - 1, ⟨by omega, ?_, by omega, fun _ => ?_⟩, ?_, fun _ => ?_⟩
    · rw [magnitude, show (q - f.leastExponent).toNat = (q - 1 - f.leastExponent).toNat + 1 by omega,
        Nat.succ_mul, pow_succ]
      omega
    · rw [pow_succ] at unit ⊢
      omega
    · rw [zpow_sub_one₀ two_ne_zero, Nat.cast_sub unit]
      push_cast
      ring
    · rw [Nat.even_sub unit, pow_succ]
      simp
  · have same : f.leastExponent < q → 2 ^ f.fractionBits ≤ m - 1 := fun higher => by
      have full := h.full higher
      have : m ≠ 2 ^ f.fractionBits := fun power => narrow ⟨power, higher⟩
      omega
    refine ⟨m - 1, q, ⟨least, by omega, by omega, same⟩, ?_, fun even => ?_⟩
    · rw [Nat.cast_sub some]
      push_cast
      ring
    · rw [Nat.even_sub some]
      simp [even]

/-- What is near to a value is rounded to it. -/
theorem nearestMagnitude_eq (h : f.Spells M m q) (finite : M < f.infinityBits) (some : 0 < m)
    (positive : 0 < den) (near : f.Near m q (num / den)) :
    f.nearestMagnitude num den = M := by
  refine Nat.le_antisymm ((nearestMagnitude_le_iff h finite positive).mpr near.high) ?_
  obtain ⟨m', q', before, middle, odd⟩ := h.pred some
  have step : ¬ f.nearestMagnitude num den ≤ M - 1 := by
    rw [nearestMagnitude_le_iff before (by omega) positive, middle]
    rcases near.low with above | ⟨same, even⟩
    · exact not_or.mpr ⟨above.not_gt, fun same => above.ne' same.1⟩
    · exact not_or.mpr ⟨same.not_gt, fun other => odd even other.2⟩
  omega

/-! ### Words -/

theorem signBit_eq (f : FloatFormat) (negative : Bool) :
    f.signBit negative = negative.toNat * 2 ^ (f.exponentBits + f.fractionBits) := by
  cases negative <;> simp [signBit]

theorem sign_add_div (negative : Bool) (small : M < 2 ^ (f.exponentBits + f.fractionBits)) :
    (f.signBit negative + M) / 2 ^ (f.exponentBits + f.fractionBits) = negative.toNat := by
  rw [signBit_eq, Nat.add_comm, Nat.add_mul_div_right _ _ (Nat.two_pow_pos _), Nat.div_eq_of_lt small,
    Nat.zero_add]

/-- The sign is not part of the fields after it. -/
theorem exponent_sign_add (f : FloatFormat) (negative : Bool) (M : ℕ) :
    (f.signBit negative + M) / 2 ^ f.fractionBits % 2 ^ f.exponentBits =
      M / 2 ^ f.fractionBits % 2 ^ f.exponentBits := by
  rw [signBit_eq, pow_add, ← Nat.mul_assoc, Nat.add_comm, Nat.add_mul_div_right _ _ (Nat.two_pow_pos _),
    Nat.add_mul_mod_self_right]

theorem fraction_sign_add (f : FloatFormat) (negative : Bool) (M : ℕ) :
    (f.signBit negative + M) % 2 ^ f.fractionBits = M % 2 ^ f.fractionBits := by
  rw [signBit_eq, pow_add, ← Nat.mul_assoc, Nat.add_comm, Nat.add_mul_mod_self_right]

/-- The fields of a magnitude. Those of a small one have the mantissa as it is, and the others have it
without the leading digit. -/
theorem Spells.fields (h : f.Spells M m q) :
    (q = f.leastExponent ∧ M / 2 ^ f.fractionBits = 0 ∧ M % 2 ^ f.fractionBits = m) ∨
      M / 2 ^ f.fractionBits = (q - f.leastExponent).toNat + 1 ∧
        M % 2 ^ f.fractionBits + 2 ^ f.fractionBits = m := by
  have least := h.least
  have below := h.below
  have magnitude := h.magnitude
  have unit : 0 < 2 ^ f.fractionBits := Nat.two_pow_pos _
  rw [pow_succ] at below
  rcases Nat.lt_or_ge m (2 ^ f.fractionBits) with small | large
  · obtain rfl : q = f.leastExponent := by
      by_contra other
      exact absurd (h.full (by omega)) (Nat.not_le.mpr small)
    rw [sub_self, Int.toNat_zero, Nat.zero_mul, Nat.zero_add] at magnitude
    rw [magnitude]
    exact .inl ⟨rfl, Nat.div_eq_of_lt small, Nat.mod_eq_of_lt small⟩
  · have split : M = (m - 2 ^ f.fractionBits) + ((q - f.leastExponent).toNat + 1) * 2 ^ f.fractionBits := by
      rw [magnitude, Nat.succ_mul]
      omega
    have rest : m - 2 ^ f.fractionBits < 2 ^ f.fractionBits := by omega
    refine .inr ⟨?_, ?_⟩
    · rw [split, Nat.add_mul_div_right _ _ unit, Nat.div_eq_of_lt rest, Nat.zero_add]
    · rw [split, Nat.add_mul_mod_self_right, Nat.mod_eq_of_lt rest, Nat.sub_add_cancel large]

/-- Below infinity the exponent field is not full. -/
theorem exponent_lt_iff : M / 2 ^ f.fractionBits < 2 ^ f.exponentBits - 1 ↔ M < f.infinityBits :=
  Nat.div_lt_iff_lt_mul (Nat.two_pow_pos _)

/-- The value of a word whose magnitude is below infinity. -/
theorem decode_eq (h : f.Spells M m q) (finite : M < f.infinityBits) (negative : Bool) :
    f.decode (f.signBit negative + M) = .finite negative m q := by
  have least := h.least
  have field := exponent_lt_iff.mpr finite
  have small : M < 2 ^ (f.exponentBits + f.fractionBits) := by
    rw [pow_add]
    exact finite.trans_le (Nat.mul_le_mul_right _ (Nat.sub_le _ _))
  have sign : (negative.toNat % 2 == 1) = negative := by cases negative <;> rfl
  unfold decode
  simp only [Nat.pow_eq, sign_add_div negative small, exponent_sign_add, fraction_sign_add, sign]
  rw [Nat.mod_eq_of_lt (field.trans_le (Nat.sub_le _ _)), if_neg field.ne]
  rcases h.fields with ⟨rfl, exponent, mantissa⟩ | ⟨exponent, mantissa⟩
  · rw [exponent, mantissa, if_pos rfl]
  · rw [exponent, mantissa, if_neg (Nat.succ_ne_zero _)]
    congr 1
    omega

/-- A word is a sign and a magnitude. -/
theorem exists_magnitude {bits : ℕ} (width : bits < 2 ^ f.width) : ∃ negative M,
    bits = f.signBit negative + M ∧ M < 2 ^ (f.exponentBits + f.fractionBits) := by
  rw [FloatFormat.width, Nat.add_assoc, Nat.add_comm 1, pow_succ] at width
  rcases Nat.lt_or_ge bits (2 ^ (f.exponentBits + f.fractionBits)) with low | high
  · exact ⟨false, bits, by simp [signBit], low⟩
  · exact ⟨true, bits - 2 ^ (f.exponentBits + f.fractionBits), by simp [signBit]; omega, by omega⟩

/-- A word with a finite value has the magnitude of the value. -/
theorem spells_of_decode {bits : ℕ} {negative : Bool} (width : bits < 2 ^ f.width)
    (value : f.decode bits = .finite negative m q) :
    ∃ M < f.infinityBits, f.Spells M m q ∧ bits = f.signBit negative + M := by
  obtain ⟨sign, M, rfl, small⟩ := exists_magnitude width
  rcases Nat.lt_or_ge M f.infinityBits with finite | infinite
  · obtain ⟨m', q', spells⟩ := f.exists_spells M
    rw [decode_eq spells finite] at value
    cases value
    exact ⟨M, finite, spells, rfl⟩
  · -- the exponent field of such a word is full
    exfalso
    rw [Nat.add_comm, pow_add] at small
    have low := Nat.not_lt.mp (mt exponent_lt_iff.mp (Nat.not_lt.mpr infinite))
    have high := Nat.div_lt_of_lt_mul small
    have full : M / 2 ^ f.fractionBits % 2 ^ f.exponentBits = 2 ^ f.exponentBits - 1 := by
      rw [Nat.mod_eq_of_lt high]
      omega
    simp only [decode, Nat.pow_eq, exponent_sign_add, full, if_true] at value
    split_ifs at value

end FloatFormat

namespace Double

variable {num den num' den' : ℕ} {negative : Bool} {d x x' y : Double} {m : ℕ} {q : ℤ}

theorem signBit_add_lt (negative : Bool) {M : ℕ} (le : M ≤ FloatFormat.double.infinityBits) :
    FloatFormat.double.signBit negative + M < 2 ^ 64 := by
  have infinity : FloatFormat.double.infinityBits = 2047 * 2 ^ 52 := rfl
  have sign : FloatFormat.double.signBit negative ≤ 2 ^ 63 := by cases negative <;> decide
  omega

theorem toNat_ofQuotient (negative : Bool) (num den : ℕ) : (ofQuotient negative num den).toNat =
    FloatFormat.double.signBit negative + FloatFormat.double.nearestMagnitude num den := by
  rw [ofQuotient, BitVec.toNat_ofNat]
  exact Nat.mod_eq_of_lt (signBit_add_lt negative FloatFormat.nearestMagnitude_le_infinityBits)

theorem spells_of_value (value : d.value = .finite negative m q) : ∃ M < FloatFormat.double.infinityBits,
    FloatFormat.double.Spells M m q ∧ d.toNat = FloatFormat.double.signBit negative + M :=
  FloatFormat.spells_of_decode d.isLt value

/-- What is near to the value of a double is rounded to it. -/
theorem ofQuotient_eq (value : d.value = .finite negative m q) (some : 0 < m) (positive : 0 < den)
    (near : FloatFormat.double.Near m q (num / den)) : ofQuotient negative num den = d := by
  obtain ⟨M, finite, spells, word⟩ := spells_of_value value
  refine BitVec.eq_of_toNat_eq ?_
  rw [toNat_ofQuotient, FloatFormat.nearestMagnitude_eq spells finite some positive near, word]

/-- A quotient that is zero has the sign. -/
theorem ofQuotient_zero (value : d.value = .finite negative 0 q) (den : ℕ) :
    ofQuotient negative 0 den = d := by
  obtain ⟨M, -, spells, word⟩ := spells_of_value value
  obtain rfl : q = FloatFormat.double.leastExponent := by
    by_contra other
    have full := spells.full (lt_of_le_of_ne spells.least (Ne.symm other))
    exact absurd full (Nat.not_le.mpr (Nat.two_pow_pos _))
  have magnitude := spells.magnitude
  rw [sub_self, Int.toNat_zero, Nat.zero_mul] at magnitude
  refine BitVec.eq_of_toNat_eq ?_
  rw [toNat_ofQuotient, word, magnitude]
  rfl

theorem toNat_ofNat (n : ℕ) : (ofNat n).toNat = FloatFormat.double.nearestMagnitude n 1 :=
  (toNat_ofQuotient false n 1).trans (Nat.zero_add _)

theorem ofNat_mono {n n' : ℕ} (le : n ≤ n') : (ofNat n).toNat ≤ (ofNat n').toNat := by
  rw [toNat_ofNat, toNat_ofNat]
  refine FloatFormat.nearestMagnitude_mono Nat.one_pos Nat.one_pos ?_
  rw [Nat.cast_one, div_one, div_one]
  exact_mod_cast le

/-- The double is a number that is not negative and not infinite. -/
theorem value_of_lt (finite : d.toNat < FloatFormat.double.infinityBits) :
    ∃ m q, FloatFormat.double.Spells d.toNat m q ∧ d.value = .finite false m q := by
  obtain ⟨m, q, spells⟩ := FloatFormat.double.exists_spells d.toNat
  refine ⟨m, q, spells, ?_⟩
  have value := FloatFormat.decode_eq spells finite false
  rwa [show FloatFormat.double.signBit false = 0 from rfl, Nat.zero_add] at value

/-- Products are ordered like their factors. -/
theorem mul_mono (le : x.toNat ≤ x'.toNat) (finite' : x'.toNat < FloatFormat.double.infinityBits)
    (finite : y.toNat < FloatFormat.double.infinityBits) : (x.mul y).toNat ≤ (x'.mul y).toNat := by
  obtain ⟨m, p, spells, value⟩ := value_of_lt (le.trans_lt finite')
  obtain ⟨m', p', spells', value'⟩ := value_of_lt finite'
  obtain ⟨n, q, -, valueY⟩ := value_of_lt finite
  have product (m : ℕ) (p : ℤ) : ((m * n * 2 ^ (p + q).toNat : ℕ) / (2 ^ (-(p + q)).toNat : ℕ) : ℚ) =
      m * 2 ^ p * (n * 2 ^ q) := by
    push_cast
    rw [mul_div_assoc, ← zpow_eq_div, zpow_add₀ two_ne_zero]
    ring
  unfold mul
  rw [value, value', valueY]
  dsimp only
  rw [toNat_ofQuotient, toNat_ofQuotient]
  refine Nat.add_le_add_left (FloatFormat.nearestMagnitude_mono (Nat.two_pow_pos _) (Nat.two_pow_pos _) ?_) _
  simp only [Nat.pow_eq, product]
  exact mul_le_mul_of_nonneg_right (spells.value_le spells' le) (by positivity)

end Double

end OrderedAtomics
