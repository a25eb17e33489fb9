import Mathlib.Data.List.TakeWhile
import Mathlib.Tactic.NormNum
import OrderedAtomics.Floating.Shortest
import OrderedAtomics.Proofs.Floating.Rounding

/-! The digits of a value stand for a number that is rounded to it. On a grid where one of the two points
around the value is near to it, such a point is taken. The last grid is so fine that the point nearest to
the value is. -/

namespace OrderedAtomics.Shortest

variable {f : FloatFormat} {m n num den : ℕ} {q k : ℤ} {tieUp : Bool}

/-! ### The interval of a value -/

theorem interval_den_pos : 0 < (interval f m q).den := Nat.two_pow_pos _

/-- A number of quarters of the unit of a value. -/
theorem quarters_eq (a : ℕ) (q : ℤ) :
    ((a * 2 ^ (q - 2).toNat : ℕ) / (2 ^ (2 - q).toNat : ℕ) : ℚ) = a / 4 * 2 ^ q := by
  rw [show 2 - q = -(q - 2) by ring, Nat.cast_mul, mul_div_assoc]
  push_cast
  rw [← zpow_eq_div, zpow_sub₀ two_ne_zero]
  norm_num
  ring

theorem middle_eq : ((interval f m q).middle / (interval f m q).den : ℚ) = m * 2 ^ q := by
  refine (quarters_eq (4 * m) q).trans ?_
  push_cast
  ring

theorem high_eq : ((interval f m q).high / (interval f m q).den : ℚ) = (m + 1 / 2) * 2 ^ q := by
  refine (quarters_eq (4 * m + 2) q).trans ?_
  push_cast
  ring

theorem low_eq (some : 0 < m) :
    ((interval f m q).low / (interval f m q).den : ℚ) = f.lowMiddle m q := by
  unfold FloatFormat.lowMiddle
  refine (quarters_eq _ q).trans ?_
  simp only [Nat.pow_eq, Bool.and_eq_true, decide_eq_true_eq]
  split_ifs
  · rw [Nat.cast_sub (by omega)]
    push_cast
    ring
  · rw [Nat.cast_sub (by omega)]
    push_cast
    ring

/-- The interval of a value has the decimal numbers that are near to it. -/
theorem holds_iff (some : 0 < m) : (interval f m q).holds n k ↔ f.Near m q (n * 10 ^ k) := by
  have positive : (0 : ℚ) < (interval f m q).den := by exact_mod_cast interval_den_pos
  have scale : (0 : ℚ) < 10 ^ (-k).toNat := by positivity
  have above (a : ℕ) : a * 10 ^ (-k).toNat < n * 10 ^ k.toNat * (interval f m q).den ↔
      (a / (interval f m q).den : ℚ) < n * 10 ^ k := by
    rw [zpow_eq_div, ← mul_div_assoc, div_lt_div_iff₀ positive scale, ← Nat.cast_lt (α := ℚ)]
    push_cast
    rfl
  have below (a : ℕ) : n * 10 ^ k.toNat * (interval f m q).den < a * 10 ^ (-k).toNat ↔
      (n * 10 ^ k : ℚ) < a / (interval f m q).den := by
    rw [zpow_eq_div, ← mul_div_assoc, div_lt_div_iff₀ scale positive, ← Nat.cast_lt (α := ℚ)]
    push_cast
    rfl
  have low := low_eq (f := f) (q := q) some
  have high := high_eq (f := f) (m := m) (q := q)
  unfold Interval.holds
  dsimp only
  simp only [Nat.pow_eq]
  rw [show (interval f m q).closed = decide (m % 2 = 0) from rfl]
  by_cases even : m % 2 = 0
  · have even' := Nat.even_iff.mpr even
    rw [decide_eq_true even, if_pos rfl]
    simp only [Bool.and_eq_true, decide_eq_true_eq]
    rw [← Nat.not_lt, ← Nat.not_lt, below, above, low, high, not_lt, not_lt]
    exact ⟨fun h => ⟨h.1.lt_or_eq.imp_right (⟨·, even'⟩), h.2.lt_or_eq.imp_right (⟨·, even'⟩)⟩,
      fun h => ⟨h.lowMiddle_le, h.le_high⟩⟩
  · have odd : ¬ Even m := mt Nat.even_iff.mp even
    rw [decide_eq_false even, if_neg Bool.false_ne_true]
    simp only [Bool.and_eq_true, decide_eq_true_eq]
    rw [below, above, low, high]
    exact ⟨fun h => ⟨.inl h.1, .inl h.2⟩,
      fun h => ⟨h.low.resolve_right fun h => odd h.2, h.high.resolve_right fun h => odd h.2⟩⟩

/-! ### The first grid -/

/-- The digits of a natural are as many as the powers of ten up to it. -/
theorem pow_length_le (some : 0 < n) :
    10 ^ ((Nat.toDigits 10 n).length - 1) ≤ n ∧ n < 10 ^ (Nat.toDigits 10 n).length := by
  have positive : 0 < (Nat.toDigits 10 n).length := Nat.length_toDigits_pos
  refine ⟨?_, (Nat.length_toDigits_le_iff (by decide) positive).mp le_rfl⟩
  rcases Nat.eq_zero_or_pos ((Nat.toDigits 10 n).length - 1) with one | more
  · rw [one, pow_zero]
    exact some
  · by_contra less
    have := (Nat.length_toDigits_le_iff (by decide) more).mpr (Nat.not_le.mp less)
    omega

theorem decimalExponent_spec (some : 0 < num) (positive : 0 < den) :
    (10 : ℚ) ^ decimalExponent num den ≤ num / den ∧
      (num / den : ℚ) < 10 ^ (decimalExponent num den + 1) := by
  have some' : (0 : ℚ) < num := by exact_mod_cast some
  have positive' : (0 : ℚ) < den := by exact_mod_cast positive
  unfold decimalExponent
  dsimp only
  split_ifs with whole reached
  · obtain ⟨low, high⟩ := pow_length_le (Nat.div_pos whole positive)
    have length : 0 < (Nat.toDigits 10 (num / den)).length := Nat.length_toDigits_pos
    rw [Nat.le_div_iff_mul_le positive] at low
    rw [Nat.div_lt_iff_lt_mul positive] at high
    rw [sub_add_cancel, ← Nat.cast_pred length, zpow_natCast, zpow_natCast, le_div_iff₀ positive',
      div_lt_iff₀ positive']
    exact_mod_cast And.intro low high
  all_goals
    have less := Nat.not_le.mp whole
    obtain ⟨low, high⟩ := pow_length_le (Nat.div_pos less.le some)
    have length : 0 < (Nat.toDigits 10 (den / num)).length := Nat.length_toDigits_pos
    rw [Nat.le_div_iff_mul_le some] at low
    rw [Nat.div_lt_iff_lt_mul some] at high
    rw [Nat.pow_eq] at reached
    generalize (Nat.toDigits 10 (den / num)).length = digits at *
  · have point : (10 : ℚ) ^ (-(digits - 1 : ℕ) : ℤ) = num / den := by
      have same : den = num * 10 ^ (digits - 1) := Nat.le_antisymm reached (by rwa [Nat.mul_comm])
      rw [zpow_neg, zpow_natCast, eq_div_iff positive'.ne', same]
      push_cast
      field_simp
    rw [zpow_add_one₀ (by norm_num), point]
    exact ⟨le_rfl, lt_mul_of_one_lt_right (by positivity) (by norm_num)⟩
  · rw [show (-digits + 1 : ℤ) = -(digits - 1 : ℕ) by omega, zpow_neg, zpow_natCast, zpow_neg, zpow_natCast,
      ← one_div, ← one_div, div_le_div_iff₀ (by positivity) positive',
      div_lt_div_iff₀ positive' (by positivity), one_mul]
    exact_mod_cast And.intro (Nat.mul_comm num _ ▸ high.le) (Nat.not_le.mp reached)

/-! ### The search -/

section Search

variable {i : Interval}

/-- The point of a grid at or below the value. -/
def Interval.below (i : Interval) (k : ℤ) : ℕ := (i.onGrid k).1 / (i.onGrid k).2

theorem onGrid_eq (i : Interval) (k : ℤ) :
    ((i.onGrid k).1 / (i.onGrid k).2 : ℚ) = i.middle / i.den / 10 ^ k := by
  rw [zpow_eq_div]
  unfold Interval.onGrid
  simp only [Nat.pow_eq]
  push_cast
  field_simp

/-- One of the two points around the value. -/
def Interval.Beside (i : Interval) (k : ℤ) (n : ℕ) : Prop := n = i.below k ∨ n = i.below k + 1

/-- The nearest point is at most half a step away. -/
theorem nearest_spec (positive : 0 < i.den) (tieUp : Bool) (k : ℤ) :
    2 * (i.onGrid k).1 ≤ 2 * ((i.onGrid k).2 * i.nearest tieUp k) + (i.onGrid k).2 ∧
      2 * ((i.onGrid k).2 * i.nearest tieUp k) ≤ 2 * (i.onGrid k).1 + (i.onGrid k).2 := by
  have grid : 0 < (i.onGrid k).2 := Nat.mul_pos positive (Nat.pow_pos (by decide))
  unfold Interval.nearest
  dsimp only
  generalize (i.onGrid k).1 = num, (i.onGrid k).2 = den at grid
  cases tieUp with
  | true =>
    rw [if_pos rfl]
    have split := Nat.div_add_mod (2 * num + den) (2 * den)
    have rest := Nat.mod_lt (2 * num + den) (Nat.mul_pos two_pos grid)
    rw [Nat.mul_assoc] at split
    omega
  | false =>
    rw [if_neg Bool.false_ne_true]
    have split := Nat.div_add_mod num den
    have rest := Nat.mod_lt num grid
    have step : den * (num / den + 1) = den * (num / den) + den := Nat.mul_succ _ _
    unfold roundDiv
    dsimp only
    rcases Nat.mod_two_eq_zero_or_one (num / den) with even | odd
    · simp only [even, Nat.add_zero]
      split_ifs <;> omega
    · rw [odd]
      split_ifs <;> omega

theorem beside_nearest (positive : 0 < i.den) (tieUp : Bool) (k : ℤ) :
    i.Beside k (i.nearest tieUp k) := by
  have grid : 0 < (i.onGrid k).2 := Nat.mul_pos positive (Nat.pow_pos (by decide))
  obtain ⟨low, high⟩ := nearest_spec positive tieUp k
  have split := Nat.div_add_mod (i.onGrid k).1 (i.onGrid k).2
  have rest := Nat.mod_lt (i.onGrid k).1 grid
  unfold Interval.Beside Interval.below
  generalize i.nearest tieUp k = n at *
  rcases Nat.lt_or_ge n ((i.onGrid k).1 / (i.onGrid k).2) with less | le
  · have step := Nat.mul_le_mul_left (i.onGrid k).2 (Nat.succ_le_of_lt less)
    rw [Nat.mul_succ] at step
    omega
  · rcases Nat.lt_or_ge ((i.onGrid k).1 / (i.onGrid k).2 + 1) n with greater | le'
    · have step := Nat.mul_le_mul_left (i.onGrid k).2 (Nat.succ_le_of_lt greater)
      rw [Nat.mul_succ, Nat.mul_succ] at step
      omega
    · omega

theorem point_spec (positive : 0 < i.den) (found : i.point tieUp k = some n) :
    i.holds n k ∧ i.Beside k n := by
  unfold Interval.point at found
  dsimp only at found
  split at found
  next lower upper =>
    obtain rfl := Option.some.inj found
    refine ⟨?_, beside_nearest positive tieUp k⟩
    rcases beside_nearest positive tieUp k with same | same
    · exact same ▸ lower
    · exact same ▸ upper
  next lower _ => exact Option.some.inj found ▸ ⟨lower, .inl rfl⟩
  next _ upper => exact Option.some.inj found ▸ ⟨upper, .inr rfl⟩
  next => cases found

/-- What is found on one of the grids beside the value, near to it unless the grid is the last one. -/
theorem search_spec (positive : 0 < i.den) (tieUp : Bool) (tries : ℕ) (k : ℤ) :
    i.Beside (search i tieUp tries k).2 (search i tieUp tries k).1 ∧
      k - tries ≤ (search i tieUp tries k).2 ∧ (search i tieUp tries k).2 ≤ k ∧
      (i.holds (search i tieUp tries k).1 (search i tieUp tries k).2 ∨
        search i tieUp tries k = (i.nearest tieUp (k - tries), k - tries)) := by
  induction tries generalizing k with
  | zero =>
    exact ⟨beside_nearest positive tieUp k, by simp [search], by simp [search], .inr (by simp [search])⟩
  | succ tries ih =>
    unfold search
    split
    next n found =>
      obtain ⟨holds, beside⟩ := point_spec positive found
      exact ⟨beside, by push_cast; omega, le_rfl, .inl holds⟩
    next =>
      obtain ⟨beside, low, high, last⟩ := ih (k - 1)
      rw [show k - 1 - tries = k - (tries + 1 : ℕ) by push_cast; ring] at low last
      exact ⟨beside, low, by omega, last⟩

/-- The nearest point is at most half a step away. -/
theorem abs_nearest_sub_le (positive : 0 < i.den) (tieUp : Bool) (k : ℤ) :
    |(i.nearest tieUp k * 10 ^ k : ℚ) - i.middle / i.den| ≤ 10 ^ k / 2 := by
  have grid : (0 : ℚ) < (i.onGrid k).2 := by
    exact_mod_cast Nat.mul_pos positive (Nat.pow_pos (by decide))
  have step : (0 : ℚ) < 10 ^ k := by positivity
  obtain ⟨up, down⟩ := nearest_spec positive tieUp k
  rw [← Nat.cast_le (α := ℚ)] at up down
  push_cast at up down
  have above : ((i.onGrid k).1 / (i.onGrid k).2 : ℚ) ≤ i.nearest tieUp k + 1 / 2 := by
    rw [div_le_iff₀ grid]
    linarith
  have below : (i.nearest tieUp k - 1 / 2 : ℚ) ≤ (i.onGrid k).1 / (i.onGrid k).2 := by
    rw [le_div_iff₀ grid]
    linarith
  have steps : |(i.nearest tieUp k : ℚ) - (i.onGrid k).1 / (i.onGrid k).2| ≤ 1 / 2 := by
    rw [abs_sub_le_iff]
    constructor <;> linarith
  rw [onGrid_eq] at steps
  have scaled := mul_le_mul_of_nonneg_right steps step.le
  rwa [← abs_of_pos step, ← abs_mul, abs_of_pos step, sub_mul, div_mul_cancel₀ _ step.ne',
    one_div_mul_eq_div] at scaled

/-- On the last grid the point nearest to the value is near to it. -/
theorem near_nearest (below : m < 2 ^ (f.fractionBits + 1)) (fraction : f.fractionBits ≤ 52)
    (fine : (10 : ℚ) ^ k * 10 ^ 16 ≤ m * 2 ^ q) (tieUp : Bool) :
    f.Near m q ((interval f m q).nearest tieUp k * 10 ^ k) := by
  have step : (0 : ℚ) < 10 ^ k := by positivity
  have unit : (0 : ℚ) < 2 ^ q := by positivity
  have near := abs_nearest_sub_le (i := interval f m q) interval_den_pos tieUp k
  rw [middle_eq, abs_sub_le_iff] at near
  have bits : 2 ^ f.fractionBits ≤ 2 ^ 52 := Nat.pow_le_pow_right two_pos fraction
  -- half a step is less than half of the way to the next value, on both sides
  have mantissa : (m : ℚ) ≤ 2 ^ 53 := by
    rw [pow_succ] at below
    exact_mod_cast (show m ≤ 2 ^ 53 by omega)
  have above := mul_le_mul_of_nonneg_right mantissa unit.le
  refine ⟨.inl ?_, .inl (by linarith [near.1])⟩
  unfold FloatFormat.lowMiddle
  split_ifs with narrow
  · have power : (m : ℚ) ≤ 2 ^ 52 := by exact_mod_cast narrow.1.trans_le bits
    have above := mul_le_mul_of_nonneg_right power unit.le
    linarith [near.2]
  · linarith [near.2]

/-- On the grid of its first digit and on the finer ones the value has a digit, and on the last of these no
more than seventeen. -/
theorem below_bounds (positive : 0 < i.den) {first : ℤ} (low : (10 : ℚ) ^ first ≤ i.middle / i.den)
    (high : (i.middle / i.den : ℚ) < 10 ^ (first + 1)) (coarse : k ≤ first) (fine : first - 16 ≤ k) :
    0 < i.below k ∧ i.below k < 10 ^ 17 := by
  have grid : 0 < (i.onGrid k).2 := Nat.mul_pos positive (Nat.pow_pos (by decide))
  have grid' : (0 : ℚ) < (i.onGrid k).2 := by exact_mod_cast grid
  have step : (0 : ℚ) < 10 ^ k := by positivity
  unfold Interval.below
  rw [Nat.div_pos_iff, and_iff_right grid, Nat.div_lt_iff_lt_mul grid, ← Nat.cast_le (α := ℚ),
    ← Nat.cast_lt (α := ℚ), ← one_le_div grid', Nat.cast_mul, ← div_lt_iff₀ grid', onGrid_eq, one_le_div step,
    div_lt_iff₀ step]
  refine ⟨(zpow_le_zpow_right₀ (by norm_num) coarse).trans low, high.trans_le ?_⟩
  rw [Nat.cast_pow, Nat.cast_ofNat, ← zpow_natCast, ← zpow_add₀ (by norm_num)]
  exact zpow_le_zpow_right₀ (by norm_num) (by push_cast; omega)

end Search

/-- What the search finds for a value is near to it. -/
theorem search_near (some : 0 < m) (below : m < 2 ^ (f.fractionBits + 1)) (fraction : f.fractionBits ≤ 52)
    (tieUp : Bool) :
    let i := interval f m q
    let found := search i tieUp (enoughDigits - 1) (decimalExponent i.middle i.den)
    0 < found.1 ∧ found.1 ≤ 10 ^ 17 ∧ f.Near m q (found.1 * 10 ^ found.2) := by
  intro i found
  have positive : 0 < i.den := interval_den_pos
  have nonzero : 0 < i.middle := Nat.mul_pos (by omega) (Nat.two_pow_pos _)
  obtain ⟨low, high⟩ := decimalExponent_spec nonzero positive
  obtain ⟨beside, deep, shallow, holds⟩ :=
    search_spec positive tieUp (enoughDigits - 1) (decimalExponent i.middle i.den)
  obtain ⟨least, most⟩ := below_bounds positive low high shallow deep
  refine ⟨?_, ?_, ?_⟩
  · rcases beside with same | same <;> rw [same] <;> omega
  · rcases beside with same | same <;> rw [same] <;> omega
  rcases holds with holds | last
  · exact (holds_iff some).mp holds
  · rw [show found = _ from last]
    refine near_nearest below fraction ?_ tieUp
    have tries : ((enoughDigits - 1 : ℕ) : ℤ) = (16 : ℕ) := rfl
    rw [← middle_eq (f := f), tries, zpow_sub₀ (by norm_num), zpow_natCast, div_mul_cancel₀ _ (by norm_num)]
    exact low

/-! ### Digits -/

/-- The first digit of a positive natural is not zero. -/
theorem exists_head_toDigits (positive : 0 < n) :
    ∃ c rest, Nat.toDigits 10 n = c :: rest ∧ c ≠ '0' := by
  induction n using Nat.strong_induction_on with
  | _ n ih =>
    rcases Nat.lt_or_ge n 10 with one | more
    · have digits : ∀ n < 10, 0 < n → n.digitChar ≠ '0' := by decide
      exact ⟨_, [], Nat.toDigits_of_lt_base one, digits n one positive⟩
    · obtain ⟨c, rest, same, nonzero⟩ := ih (n / 10) (by omega) (by omega)
      exact ⟨c, rest ++ [(n % 10).digitChar],
        by rw [Nat.toDigits_of_base_le (by decide) more, same, List.cons_append], nonzero⟩

/-- Digits and the power of ten of the last one that a value is written with. -/
structure Written (f : FloatFormat) (m : ℕ) (q : ℤ) (digits : List Char) (k : ℤ) : Prop where
  isDigit : ∀ c ∈ digits, c.isDigit
  leading : ∃ c rest, digits = c :: rest ∧ c ≠ '0'
  short : digits.length ≤ 18
  few : Nat.ofDigitChars 10 digits 0 ≤ 10 ^ 17
  near : f.Near m q (Nat.ofDigitChars 10 digits 0 * 10 ^ k)

/-- Zeros at the end are taken off and counted. -/
theorem exists_stripped (digits : List Char) : digits =
    (digits.reverse.dropWhile (· = '0')).reverse ++
      List.replicate (digits.reverse.takeWhile (· = '0')).length '0' := by
  have zeros : (digits.reverse.takeWhile (· = '0')).reverse =
      List.replicate (digits.reverse.takeWhile (· = '0')).length '0' := by
    refine List.eq_replicate_iff.mpr ⟨List.length_reverse, fun c among => ?_⟩
    simpa using List.mem_takeWhile_imp (List.mem_reverse.mp among)
  rw [← zeros, ← List.reverse_append, List.takeWhile_append_dropWhile, List.reverse_reverse]

/-- The digits of a value stand for a number that is rounded to it. -/
theorem written_digits (positive : 0 < m) (below : m < 2 ^ (f.fractionBits + 1))
    (fraction : f.fractionBits ≤ 52) (tieUp : Bool) :
    Written f m q (digits f tieUp m q).1 (digits f tieUp m q).2 := by
  obtain ⟨least, few, near⟩ := search_near (q := q) positive below fraction tieUp
  unfold digits
  dsimp only at least few near ⊢
  generalize search (interval f m q) tieUp (enoughDigits - 1)
    (decimalExponent (interval f m q).middle (interval f m q).den) = found at *
  obtain ⟨n, k⟩ := found
  dsimp only at least few near ⊢
  have split := exists_stripped (Nat.toDigits 10 n)
  set front := ((Nat.toDigits 10 n).reverse.dropWhile (· = '0')).reverse
  set zeros := ((Nat.toDigits 10 n).reverse.takeWhile (· = '0')).length
  have value : 10 ^ zeros * Nat.ofDigitChars 10 front 0 = n := by
    rw [← Nat.ofDigitChars_replicate_zero, ← Nat.ofDigitChars_append, ← split, Nat.ofDigitChars_ten_toDigits]
  obtain ⟨c, rest, first, nonzero⟩ := exists_head_toDigits least
  have isDigit : ∀ c ∈ Nat.toDigits 10 n, c.isDigit := fun c =>
    Nat.isDigit_of_mem_toDigits (by decide) le_rfl
  have short : (Nat.toDigits 10 n).length ≤ 18 :=
    (Nat.length_toDigits_le_iff (by decide) (by decide)).mpr (few.trans_lt (by decide))
  refine ⟨fun c among => ?_, ?_, ?_, ?_, ?_⟩
  · exact isDigit c (split ▸ List.mem_append_left _ among)
  · cases empty : front with
    | nil =>
      rw [empty, Nat.ofDigitChars_nil] at value
      omega
    | cons d front' =>
      rw [first, empty, List.cons_append] at split
      exact ⟨d, front', rfl, (List.cons.inj split).1 ▸ nonzero⟩
  · rw [split, List.length_append] at short
    exact (Nat.le_add_right _ _).trans short
  · exact le_trans (Nat.le_mul_of_pos_left _ (Nat.pow_pos (by decide))) (value.trans_le few)
  · have value' : (Nat.ofDigitChars 10 front 0 * 10 ^ (k + zeros) : ℚ) = n * 10 ^ k := by
      rw [← value, zpow_add₀ (by norm_num), zpow_natCast]
      push_cast
      ring
    rw [value']
    exact near

end OrderedAtomics.Shortest
