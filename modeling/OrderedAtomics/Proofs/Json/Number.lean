import OrderedAtomics.Json.Printer
import OrderedAtomics.Json.Reader
import OrderedAtomics.Proofs.Floating.Shortest

/-! Numbers that are written into a data file and read from it. Every text of a finite double is read, and
the decimal number that it says is rounded to that double. The reader does not round once, though: it
multiplies the digits by a power of ten in doubles. -/

namespace OrderedAtomics.Json.Number

variable {digits rest : List Char} {significand m : ℕ} {exponent q k : ℤ} {negative : Bool}

/-! ### Digits -/

/-- Digits that something is written after stop where it begins. -/
def Stops (rest : List Char) : Prop := ∀ c ∈ rest.head?, ¬ c.isDigit

theorem stops_cons {c : Char} (stop : ¬ c.isDigit) (rest : List Char) : Stops (c :: rest) := fun _ first =>
  Option.some.inj first ▸ stop

theorem takeWhile_isDigit (stops : Stops rest) : rest.takeWhile Char.isDigit = [] := by
  cases rest with
  | nil => rfl
  | cons c rest => exact List.takeWhile_cons_of_neg (stops c rfl)

theorem dropWhile_isDigit (stops : Stops rest) : rest.dropWhile Char.isDigit = rest := by
  cases rest with
  | nil => rfl
  | cons c rest => exact List.dropWhile_cons_of_neg (stops c rfl)

theorem le_ofDigitChars (digits : List Char) (n : ℕ) : n ≤ Nat.ofDigitChars 10 digits n := by
  rw [Nat.ofDigitChars_eq_ofDigitChars_zero]
  exact (Nat.le_mul_of_pos_left n (Nat.pow_pos (by decide))).trans (Nat.le_add_right _ _)

/-- Digits are all taken if the significand that they make is a word. -/
theorem takeDigits_append {n : ℕ} (isDigit : ∀ c ∈ digits, c.isDigit)
    (fits : Nat.ofDigitChars 10 digits n < wordLimit) (stops : Stops rest) (taken : ℕ) :
    takeDigits n taken (digits ++ rest) =
      (Nat.ofDigitChars 10 digits n, taken + digits.length, rest) := by
  induction digits generalizing n taken with
  | nil =>
    cases rest with
    | nil => rfl
    | cons c rest =>
      have stop : ¬ c.isDigit := stops c rfl
      simp [takeDigits, stop]
  | cons c digits ih =>
    obtain ⟨isDigit, others⟩ := List.forall_mem_cons.mp isDigit
    rw [Nat.ofDigitChars_cons, show c.toNat - '0'.toNat = digit c from rfl] at fits ⊢
    have fits' : 10 * n + digit c < wordLimit := (le_ofDigitChars digits _).trans_lt fits
    rw [List.cons_append, takeDigits, if_pos (by simp [isDigit, fits']), ih others fits, List.length_cons,
      Nat.add_assoc, Nat.add_comm 1]

/-! ### The parts of a number -/

/-- No number goes on with the text. -/
def Ends (rest : List Char) : Prop := ∀ c ∈ rest.head?, ¬ c.isDigit ∧ c ≠ '.' ∧ c ≠ 'e' ∧ c ≠ 'E'

theorem Ends.stops (ends : Ends rest) : Stops rest := fun c first => (ends c first).1

/-- The number that a significand and an exponent are computed to, and the text after it. -/
def computed (negative : Bool) (significand : ℕ) (exponent : ℤ) (rest : List Char) :
    Option (Double × List Char) :=
  (scaled? significand exponent).map fun d => (signed negative d, rest)

theorem finishFloat_ends (ends : Ends rest) :
    finishFloat negative significand exponent rest = computed negative significand exponent rest := by
  unfold finishFloat
  split
  next => exact absurd rfl (ends 'e' rfl).2.2.1
  next => exact absurd rfl (ends 'E' rfl).2.2.2
  next => rfl

theorem readFraction_append (some : digits ≠ []) (isDigit : ∀ c ∈ digits, c.isDigit)
    (fits : Nat.ofDigitChars 10 digits significand < wordLimit) (stops : Stops rest) :
    readFraction negative significand exponent (digits ++ rest) =
      finishFloat negative (Nat.ofDigitChars 10 digits significand) (exponent - digits.length) rest := by
  obtain ⟨c, digits', rfl⟩ := List.exists_cons_of_ne_nil some
  have first : c.isDigit := isDigit c List.mem_cons_self
  rw [List.cons_append, readFraction, if_pos first, ← List.cons_append, takeDigits_append isDigit fits stops]
  dsimp only
  rw [dropWhile_isDigit stops, Nat.zero_add]

/-- An exponent with its sign. -/
def exponentChars (e : ℤ) : List Char := (if 0 ≤ e then '+' else '-') :: Nat.toDigits 10 e.natAbs

theorem toList_exponent (e : ℤ) :
    ((if FloatStyle.data.plus && 0 ≤ e then "+" else "") ++ toString e).toList = exponentChars e := by
  unfold exponentChars
  cases e with
  | ofNat n =>
    have sign : (0 : ℤ) ≤ Int.ofNat n := Int.natCast_nonneg n
    rw [if_pos sign]
    simp only [FloatStyle.data, Bool.true_and, decide_eq_true_eq, if_pos sign]
    rw [String.toList_append, show toString (Int.ofNat n) = toString n from rfl,
      Nat.toString_eq_ofList_toDigits, String.toList_ofList, String.toList_ofList]
    rfl
  | negSucc n =>
    have sign : ¬ (0 : ℤ) ≤ Int.negSucc n := Int.not_le.mpr (Int.negSucc_lt_zero n)
    rw [if_neg sign]
    simp only [FloatStyle.data, Bool.true_and, decide_eq_true_eq, if_neg sign]
    rw [String.empty_append, show toString (Int.negSucc n) = "-" ++ toString (n + 1) from rfl,
      String.toList_append, Nat.toString_eq_ofList_toDigits, String.toList_ofList, String.toList_ofList]
    rfl

theorem readExponent_append {e : ℤ} (small : e.natAbs < exponentLimit) (stops : Stops rest) :
    readExponent negative significand exponent (exponentChars e ++ rest) =
      computed negative significand (exponent + e) rest := by
  have isDigit : ∀ c ∈ Nat.toDigits 10 e.natAbs, c.isDigit := fun c =>
    Nat.isDigit_of_mem_toDigits (by decide) le_rfl
  have taken : (Nat.toDigits 10 e.natAbs ++ rest).takeWhile Char.isDigit = Nat.toDigits 10 e.natAbs := by
    rw [List.takeWhile_append_of_pos isDigit, takeWhile_isDigit stops, List.append_nil]
  have left : (Nat.toDigits 10 e.natAbs ++ rest).dropWhile Char.isDigit = rest := by
    rw [List.dropWhile_append_of_pos isDigit, dropWhile_isDigit stops]
  have value : ofDigits (Nat.toDigits 10 e.natAbs) = e.natAbs := Nat.ofDigitChars_ten_toDigits
  have some : (Nat.toDigits 10 e.natAbs).isEmpty = false := by simp [Nat.toDigits_ne_nil]
  have small' : ¬ exponentLimit ≤ e.natAbs := Nat.not_le.mpr small
  unfold exponentChars readExponent computed
  rw [List.cons_append]
  split_ifs with up
  · simp only [taken, left, value, some, if_neg small', Bool.false_eq_true, if_false,
      Int.natAbs_of_nonneg up]
    cases scaled? significand (exponent + e) <;> rfl
  · have same : exponent - e.natAbs = exponent + e := by omega
    simp only [taken, left, value, some, if_neg small', Bool.false_eq_true, if_false, if_true, same]
    cases scaled? significand (exponent + e) <;> rfl

/-! ### Numbers with a point or an exponent -/

/-- Digits before a point or an exponent: a zero or digits without one at the front. -/
structure Front (front : List Char) : Prop where
  isDigit : ∀ c ∈ front, c.isDigit
  leading : front = ['0'] ∨ ∃ c rest, front = c :: rest ∧ c ≠ '0'

theorem readUnsigned_append {front : List Char} (leads : Front front)
    (fits : Nat.ofDigitChars 10 front 0 < wordLimit) (stops : Stops rest) (goesOn : rest ≠ []) :
    readUnsigned negative (front ++ rest) = readTail negative (Nat.ofDigitChars 10 front 0) rest := by
  obtain ⟨d, rest, rfl⟩ := List.exists_cons_of_ne_nil goesOn
  rcases leads.leading with rfl | ⟨c, front, rfl, nonzero⟩
  · have stop : ¬ d.isDigit := stops d rfl
    show (if d.isDigit then none else readTail negative 0 (d :: rest)) = _
    rw [if_neg stop]
    rfl
  · have first : c.isDigit := leads.isDigit c List.mem_cons_self
    rw [List.cons_append, readUnsigned]
    · rw [if_pos first, ← List.cons_append, takeDigits_append leads.isDigit fits stops]
    · exact fun zero => nonzero zero

theorem readUnsigned_point {front : List Char} (leads : Front front) (nonempty : digits ≠ [])
    (isDigit : ∀ c ∈ digits, c.isDigit) (fits : Nat.ofDigitChars 10 (front ++ digits) 0 < wordLimit)
    (stops : Stops rest) :
    readUnsigned negative (front ++ '.' :: (digits ++ rest)) =
      (finishFloat negative (Nat.ofDigitChars 10 (front ++ digits) 0) (-digits.length) rest).map
        fun r => (.float r.1, r.2) := by
  rw [Nat.ofDigitChars_append] at fits ⊢
  have stops' : Stops ('.' :: (digits ++ rest)) := stops_cons (by decide) _
  rw [readUnsigned_append leads ((le_ofDigitChars digits _).trans_lt fits) stops' (List.cons_ne_nil _ _)]
  unfold readTail
  rw [takeWhile_isDigit stops', dropWhile_isDigit stops']
  show (readFraction negative _ 0 (digits ++ rest)).map _ = _
  rw [readFraction_append nonempty isDigit fits stops, Int.zero_sub]

theorem readUnsigned_exponent {front : List Char} (leads : Front front)
    (fits : Nat.ofDigitChars 10 front 0 < wordLimit) :
    readUnsigned negative (front ++ 'e' :: rest) =
      (readExponent negative (Nat.ofDigitChars 10 front 0) 0 rest).map fun r => (.float r.1, r.2) := by
  have stops : Stops ('e' :: rest) := stops_cons (by decide) _
  rw [readUnsigned_append leads fits stops (List.cons_ne_nil _ _)]
  unfold readTail
  rw [takeWhile_isDigit stops, dropWhile_isDigit stops]
  rfl

/-! ### The text of a value -/

theorem ofDigitChars_lt (isDigit : ∀ c ∈ digits, c.isDigit) (n : ℕ) :
    Nat.ofDigitChars 10 digits n < 10 ^ digits.length * (n + 1) := by
  induction digits generalizing n with
  | nil => simp
  | cons c digits ih =>
    obtain ⟨first, others⟩ := List.forall_mem_cons.mp isDigit
    have nine : c.toNat - '0'.toNat ≤ 9 := by
      have range : 48 ≤ c.toNat ∧ c.toNat ≤ 57 := by
        simpa [Char.isDigit, UInt32.le_iff_toNat_le] using first
      exact Nat.sub_le_of_le_add range.2
    rw [Nat.ofDigitChars_cons, List.length_cons, pow_succ, Nat.mul_assoc]
    exact (ih others _).trans_le (Nat.mul_le_mul_left _ (by omega))

/-- A text is read as a significand and an exponent that make a decimal number. A power of ten is multiplied
with only if these are its own digits. -/
structure ReadAs (text : List Char) (digits : List Char) (k : ℤ) (significand : ℕ) (exponent : ℤ) : Prop where
  read : ∀ negative rest, Ends rest → readUnsigned negative (text ++ rest) =
    (computed negative significand exponent rest).map fun r => (.float r.1, r.2)
  value : (significand * 10 ^ exponent : ℚ) = Nat.ofDigitChars 10 digits 0 * 10 ^ k
  own : exponent < 0 ∨ significand = Nat.ofDigitChars 10 digits 0 ∧ exponent = k

/-- A text with digits after a point. -/
theorem readAs_point {text front back : List Char} (text_eq : text = front ++ '.' :: back)
    (leads : Front front) (nonempty : back ≠ []) (isDigit : ∀ c ∈ back, c.isDigit)
    (fits : Nat.ofDigitChars 10 (front ++ back) 0 < wordLimit)
    (value : (Nat.ofDigitChars 10 (front ++ back) 0 * 10 ^ (-back.length : ℤ) : ℚ) =
      Nat.ofDigitChars 10 digits 0 * 10 ^ k) :
    ∃ significand exponent, ReadAs text digits k significand exponent := by
  have some := List.length_pos_iff.mpr nonempty
  refine ⟨_, _, fun negative rest ends => ?_, value, .inl (by omega)⟩
  rw [text_eq, List.append_assoc, List.cons_append, readUnsigned_point leads nonempty isDigit fits ends.stops,
    finishFloat_ends ends]

theorem isDigit_zeros (n : ℕ) : ∀ c ∈ List.replicate n '0', c.isDigit := fun _ among =>
  (List.eq_of_mem_replicate among) ▸ rfl

section Layouts

variable {f : FloatFormat} {text : List Char} (written : Shortest.Written f m q digits k)
include written

theorem digits_fit : Nat.ofDigitChars 10 digits 0 < wordLimit :=
  written.few.trans_lt (by decide)

theorem digits_nonempty : digits ≠ [] := by
  obtain ⟨c, others, rfl, -⟩ := written.leading
  exact List.cons_ne_nil _ _

/-- Zeros between the point and the digits. -/
theorem readAs_small {zeros : ℕ} (text_eq : text = ['0', '.'] ++ List.replicate zeros '0' ++ digits)
    (place : k = -(zeros + digits.length)) :
    ∃ significand exponent, ReadAs text digits k significand exponent := by
  have value : Nat.ofDigitChars 10 (['0'] ++ (List.replicate zeros '0' ++ digits)) 0 =
      Nat.ofDigitChars 10 digits 0 := by
    rw [Nat.ofDigitChars_append, Nat.ofDigitChars_append, Nat.ofDigitChars_replicate_zero]
    rfl
  have text_eq' : text = ['0'] ++ '.' :: (List.replicate zeros '0' ++ digits) :=
    text_eq.trans (List.append_assoc _ _ _)
  refine readAs_point text_eq' ⟨isDigit_zeros 1, .inl rfl⟩
    (List.append_ne_nil_of_right_ne_nil _ (digits_nonempty written))
    (List.forall_mem_append.mpr ⟨isDigit_zeros zeros, written.isDigit⟩)
    (value ▸ digits_fit written) ?_
  rw [value, List.length_append, List.length_replicate, Nat.cast_add, place]

/-- Zeros between the digits and the point. -/
theorem readAs_whole {zeros : ℕ} (text_eq : text = digits ++ List.replicate zeros '0' ++ ['.', '0'])
    (place : k = zeros) (short : digits.length + zeros ≤ 16) :
    ∃ significand exponent, ReadAs text digits k significand exponent := by
  have value : Nat.ofDigitChars 10 (digits ++ List.replicate zeros '0' ++ ['0']) 0 =
      10 ^ (zeros + 1) * Nat.ofDigitChars 10 digits 0 := by
    rw [Nat.ofDigitChars_append, Nat.ofDigitChars_append, Nat.ofDigitChars_replicate_zero, pow_succ]
    show 10 * (_ * _) + 0 = _
    ring
  refine readAs_point text_eq ⟨List.forall_mem_append.mpr ⟨written.isDigit, isDigit_zeros zeros⟩, .inr ?_⟩
    (List.cons_ne_nil _ _) (isDigit_zeros 1) ?_ ?_
  · obtain ⟨c, others, rfl, nonzero⟩ := written.leading
    exact ⟨c, _, rfl, nonzero⟩
  · have less := ofDigitChars_lt written.isDigit 0
    rw [Nat.zero_add, Nat.mul_one] at less
    calc _ = 10 ^ (zeros + 1) * Nat.ofDigitChars 10 digits 0 := value
      _ < 10 ^ (zeros + 1) * 10 ^ digits.length := Nat.mul_lt_mul_of_pos_left less (Nat.pow_pos (by decide))
      _ ≤ 10 ^ 17 := by
        rw [← pow_add]
        exact Nat.pow_le_pow_right (by decide) (by omega)
      _ ≤ wordLimit := by decide
  · rw [value, place, zpow_natCast, List.length_singleton, pow_succ]
    push_cast
    norm_num
    ring

/-- The point between two digits. -/
theorem readAs_between {front back : List Char} (text_eq : text = front ++ '.' :: back)
    (split : digits = front ++ back) (before : front ≠ []) (behind : back ≠ []) (place : k = -back.length) :
    ∃ significand exponent, ReadAs text digits k significand exponent := by
  subst split
  obtain ⟨isDigit, isDigit'⟩ := List.forall_mem_append.mp written.isDigit
  refine readAs_point text_eq ⟨isDigit, .inr ?_⟩ behind isDigit' (digits_fit written) (by rw [place])
  obtain ⟨c, others, same, nonzero⟩ := written.leading
  obtain ⟨d, front, rfl⟩ := List.exists_cons_of_ne_nil before
  exact ⟨d, front, rfl, (List.cons.inj same).1 ▸ nonzero⟩

/-- The point after the first digit, if there are more, and an exponent. -/
theorem readAs_exponent {e : ℤ} (place : e = digits.length + k - 1) (small : e.natAbs < exponentLimit)
    (text_eq : text = digits.take 1 ++ (match digits.drop 1 with | [] => [] | rest => '.' :: rest) ++
      'e' :: exponentChars e) :
    ∃ significand exponent, ReadAs text digits k significand exponent := by
  obtain ⟨c, others, rfl, nonzero⟩ := written.leading
  obtain ⟨first, isDigit⟩ := List.forall_mem_cons.mp written.isDigit
  have leads : Front [c] := ⟨by simpa using first, .inr ⟨c, [], rfl, nonzero⟩⟩
  have fits := digits_fit written
  refine ⟨Nat.ofDigitChars 10 (c :: others) 0, k, fun negative rest ends => ?_, rfl, .inr ⟨rfl, rfl⟩⟩
  rw [text_eq, List.append_assoc, List.cons_append]
  cases others with
  | nil =>
    show readUnsigned negative ([c] ++ 'e' :: (exponentChars e ++ rest)) = _
    rw [readUnsigned_exponent leads fits, readExponent_append small ends.stops, place]
    simp
  | cons d others =>
    have stops : Stops ('e' :: (exponentChars e ++ rest)) := stops_cons (by decide) _
    show readUnsigned negative ([c] ++ '.' :: (d :: others ++ 'e' :: (exponentChars e ++ rest))) = _
    rw [readUnsigned_point leads (List.cons_ne_nil _ _) isDigit fits stops]
    refine (congrArg (Option.map _) (readExponent_append small ends.stops)).trans ?_
    rw [place]
    congr 2
    simp only [List.length_cons]
    push_cast
    ring

/-- Every layout is read. -/
theorem exists_readAs (small : (digits.length + k - 1).natAbs < exponentLimit) : ∃ significand exponent,
    ReadAs (FloatStyle.data.layout digits (digits.length + k)).toList digits k significand exponent := by
  have nonempty := List.length_pos_iff.mpr (digits_nonempty written)
  unfold FloatStyle.layout
  split_ifs with positional before whole
  · exact readAs_small written String.toList_ofList (by omega)
  · simp only [Bool.and_eq_true, decide_eq_true_eq, FloatStyle.mostWhole] at positional
    exact readAs_whole written String.toList_ofList (by omega) (by omega)
  · have inside : 0 < (digits.length + k).toNat ∧ (digits.length + k).toNat < digits.length := by omega
    refine readAs_between written (String.toList_ofList.trans (List.append_cons _ _ _).symm)
      (List.take_append_drop _ _).symm ?_ ?_ ?_
    · rw [← List.length_pos_iff, List.length_take]
      omega
    · rw [← List.length_pos_iff, List.length_drop]
      omega
    · rw [List.length_drop]
      omega
  · refine readAs_exponent written rfl small ?_
    rw [String.append_assoc, String.toList_append, toList_exponent, String.toList_ofList, List.append_assoc]
    rfl

end Layouts

/-! ### Finite numbers -/

/-- Up to here the digits of a finite double with the exponent `k` go, unless it is the greatest one. -/
abbrev mostDigits (k : ℕ) : ℕ := min (10 ^ 17) ((2 ^ 54 - 3) * 2 ^ 970 / 10 ^ k)

/-- Their product with the power of ten is finite. -/
theorem mostDigits_finite : ∀ k < 309,
    (power k).toNat < FloatFormat.double.infinityBits ∧
      (Double.ofNat (mostDigits k)).toNat < FloatFormat.double.infinityBits ∧
        ((Double.ofNat (mostDigits k)).mul (power k)).toNat < FloatFormat.double.infinityBits := by
  decide +kernel

/-- Greater powers of ten are greater than every finite double. -/
theorem mostDigits_eq_zero {k : ℕ} (large : 309 ≤ k) : mostDigits k = 0 := by
  have fewer {i : ℕ} (le : i ≤ k) : mostDigits k ≤ mostDigits i :=
    min_le_min_left _ (Nat.div_le_div_left (Nat.pow_le_pow_right (by decide) le) (Nat.pow_pos (by decide)))
  have none : mostDigits 309 = 0 := by decide +kernel
  exact Nat.le_zero.mp ((fewer large).trans_eq none)

theorem product_finite {n k : ℕ} (small : k < 309) (le : n ≤ mostDigits k) :
    (Double.ofNat n).mul (power k) ≠ .infinity false := by
  obtain ⟨power, digits, product⟩ := mostDigits_finite k small
  intro infinite
  have less := (Double.mul_mono (Double.ofNat_mono le) digits power).trans_lt product
  rw [infinite] at less
  exact absurd less (by decide)

section Finite

variable {M : ℕ} (spells : FloatFormat.double.Spells M m q)
include spells

/-- The fields of a finite double. -/
theorem double_fields (finite : M < FloatFormat.double.infinityBits) :
    -1074 ≤ q ∧ q ≤ 971 ∧ m < 2 ^ 53 ∧ (q = 971 → M = FloatFormat.double.infinityBits - 2 ^ 53 + m) ∧
      (M = FloatFormat.double.infinityBits - 1 → q = 971 ∧ m = 2 ^ 53 - 1) := by
  obtain ⟨least, magnitude, below, full⟩ := spells
  have unit : FloatFormat.double.fractionBits = 52 := rfl
  have exponent : FloatFormat.double.leastExponent = -1074 := rfl
  have infinity : FloatFormat.double.infinityBits = 2047 * 2 ^ 52 := rfl
  rw [unit] at magnitude below full
  rw [exponent] at least magnitude full
  rw [infinity] at finite ⊢
  omega

/-- The middle after a double that is neither infinite nor the greatest one. -/
theorem high_middle_le (less : M < FloatFormat.double.infinityBits - 1) :
    ((m : ℚ) + 1 / 2) * 2 ^ q ≤ (2 ^ 54 - 3) * 2 ^ 970 := by
  obtain ⟨-, most, below, last, -⟩ := double_fields spells (less.trans_le (Nat.sub_le _ _))
  have infinity : FloatFormat.double.infinityBits = 2047 * 2 ^ 52 := rfl
  rw [infinity] at less last
  have greatest : q < 971 ∨ q = 971 ∧ m ≤ 2 ^ 53 - 2 := by omega
  rcases greatest with lower | ⟨rfl, mantissa⟩
  · have mantissa : (m : ℚ) + 1 / 2 ≤ 2 ^ 53 := by
      have : (m : ℚ) + 1 ≤ 2 ^ 53 := by exact_mod_cast below
      linarith
    calc ((m : ℚ) + 1 / 2) * 2 ^ q ≤ 2 ^ 53 * 2 ^ (970 : ℤ) := by
          gcongr
          · exact one_le_two
          · omega
      _ ≤ (2 ^ 54 - 3) * 2 ^ 970 := by
          rw [show (970 : ℤ) = (970 : ℕ) from rfl, zpow_natCast]
          gcongr
          norm_num
  · have mantissa' : (m : ℚ) ≤ 2 ^ 53 - 2 := by
      have : m + 2 ≤ 2 ^ 53 := by omega
      have : (m : ℚ) + 2 ≤ 2 ^ 53 := by exact_mod_cast this
      linarith
    calc ((m : ℚ) + 1 / 2) * 2 ^ (971 : ℤ) ≤ (2 ^ 53 - 2 + 1 / 2) * 2 ^ (971 : ℤ) := by gcongr
      _ = (2 ^ 54 - 3) * 2 ^ 970 := by
          rw [show (971 : ℤ) = (970 : ℕ) + 1 from rfl, zpow_add_one₀ two_ne_zero, zpow_natCast]
          generalize (2 : ℚ) ^ 970 = unit
          ring

/-- What is near to a double that is neither infinite nor the greatest one has a finite product. -/
theorem scaled?_isSome (less : M < FloatFormat.double.infinityBits - 1)
    (near : FloatFormat.double.Near m q (significand * 10 ^ k)) (few : significand ≤ 10 ^ 17) :
    (scaled? significand k).isSome := by
  unfold scaled?
  split_ifs with down zero large
  · rfl
  · rfl
  all_goals
    obtain ⟨n, rfl⟩ := Int.eq_ofNat_of_zero_le (Int.not_lt.mp down)
    rw [Int.toNat_natCast] at large
    have digits : significand ≤ mostDigits n := by
      have factor : ((2 ^ 54 - 3 : ℕ) : ℚ) = 2 ^ 54 - 3 := by norm_num
      have le := near.le_high.trans (high_middle_le spells less)
      rw [zpow_natCast, ← factor] at le
      exact le_min few ((Nat.le_div_iff_mul_le (Nat.pow_pos (by decide))).mpr (by exact_mod_cast le))
  · rw [mostDigits_eq_zero large] at digits
    exact absurd (Nat.le_zero.mp digits) zero
  · dsimp only
    rw [Int.toNat_natCast, if_neg (product_finite (Nat.lt_succ_of_le (Nat.not_lt.mp large)) digits)]
    rfl

/-- The exponents of the digits are not much larger than those of the doubles. -/
theorem exponent_small (finite : M < FloatFormat.double.infinityBits) (positive : 0 < m)
    (written : Shortest.Written .double m q digits k) :
    (digits.length + k - 1).natAbs < exponentLimit := by
  obtain ⟨least, most, below, -⟩ := double_fields spells finite
  have short := written.short
  have few : (Nat.ofDigitChars 10 digits 0 : ℚ) ≤ 10 ^ 17 := by exact_mod_cast written.few
  have step : (0 : ℚ) < 10 ^ k := by positivity
  have above := written.near.half_unit_le positive
  have some : (1 : ℚ) ≤ Nat.ofDigitChars 10 digits 0 := by
    have : (0 : ℚ) < Nat.ofDigitChars 10 digits 0 * 10 ^ k := lt_of_lt_of_le (by positivity) above
    exact_mod_cast pos_of_mul_pos_left this step.le
  have bases (n : ℕ) : (2 : ℚ) ^ n ≤ 10 ^ n := pow_le_pow_left₀ two_pos.le (by norm_num) n
  have deep : (-(1075 : ℕ) : ℤ) ≤ 17 + k := by
    refine (zpow_le_zpow_iff_right₀ (show (1 : ℚ) < 10 by norm_num)).mp ?_
    calc (10 : ℚ) ^ (-(1075 : ℕ) : ℤ) ≤ 2 ^ (-(1075 : ℕ) : ℤ) := by
          rw [zpow_neg, zpow_neg, zpow_natCast, zpow_natCast]
          exact inv_anti₀ (by positivity) (bases 1075)
      _ ≤ 2 ^ (q - 1) := zpow_le_zpow_right₀ one_le_two (by omega)
      _ = 2 ^ q / 2 := zpow_sub_one₀ two_ne_zero q
      _ ≤ Nat.ofDigitChars 10 digits 0 * 10 ^ k := above
      _ ≤ 10 ^ (17 : ℕ) * 10 ^ k := by gcongr
      _ = 10 ^ (17 + k) := by rw [zpow_add₀ (by norm_num)]; rfl
  have high : k ≤ (1024 : ℕ) := by
    refine (zpow_le_zpow_iff_right₀ (show (1 : ℚ) < 10 by norm_num)).mp ?_
    calc (10 : ℚ) ^ k ≤ Nat.ofDigitChars 10 digits 0 * 10 ^ k := le_mul_of_one_le_left step.le some
      _ ≤ (2 ^ 53 : ℕ) * 2 ^ q := written.near.le_of_mantissa_lt below
      _ = 2 ^ (53 + q) := by rw [zpow_add₀ two_ne_zero]; norm_num
      _ ≤ 2 ^ ((1024 : ℕ) : ℤ) := zpow_le_zpow_right₀ one_le_two (by omega)
      _ ≤ 10 ^ ((1024 : ℕ) : ℤ) := by
          rw [zpow_natCast, zpow_natCast]
          exact bases 1024
  have limit : exponentLimit = 2147483648 := rfl
  omega

end Finite

/-! ### Doubles -/

/-- One double is computed from the digits and the exponent of a decimal number, and the other one is the
nearest to that number. -/
def StandsFor (x d : Double) : Prop := ∃ negative significand exponent magnitude,
  scaled? significand exponent = some magnitude ∧ x = signed negative magnitude ∧
    Double.ofQuotient negative (significand * 10 ^ exponent.toNat) (10 ^ (-exponent).toNat) = d

/-- The digits of the greatest double. -/
theorem digits_greatest : Shortest.digits .double false (2 ^ 53 - 1) 971 =
    ("17976931348623157".toList, 292) := by
  decide +kernel

theorem scaled?_neg (down : exponent < 0) : (scaled? significand exponent).isSome := by
  unfold scaled?
  rw [if_pos down]
  rfl

/-- The product of the digits of a finite double and their power of ten is finite. -/
theorem scaled?_digits {M : ℕ} (spells : FloatFormat.double.Spells M m q)
    (finite : M < FloatFormat.double.infinityBits)
    (written : Shortest.Written .double m q (Shortest.digits .double false m q).1
      (Shortest.digits .double false m q).2) :
    (scaled? (Nat.ofDigitChars 10 (Shortest.digits .double false m q).1 0)
      (Shortest.digits .double false m q).2).isSome := by
  rcases Nat.lt_or_ge M (FloatFormat.double.infinityBits - 1) with less | greatest
  · exact scaled?_isSome spells less written.near written.few
  · obtain ⟨-, -, -, -, last⟩ := double_fields spells finite
    obtain ⟨rfl, rfl⟩ := last (Nat.le_antisymm (Nat.le_pred_of_lt finite) greatest)
    rw [digits_greatest]
    decide +kernel

variable {d : Double}

/-- The text of a positive or negative number is read as a decimal number that is rounded to it. -/
theorem read_digits (value : d.value = .finite negative m q) (positive : 0 < m) :
    ∃ text x, d.dataText = signText negative ++ text ∧ StandsFor (signed negative x) d ∧ ∀ rest, Ends rest →
      readUnsigned negative (text.toList ++ rest) = some (.float (signed negative x), rest) := by
  obtain ⟨M, finite, spells, -⟩ := Double.spells_of_value value
  have written := Shortest.written_digits (q := q) positive spells.below le_rfl false
  have small := exponent_small spells finite positive written
  obtain ⟨significand, exponent, read⟩ := exists_readAs written small
  have some : (scaled? significand exponent).isSome := by
    rcases read.own with down | ⟨rfl, rfl⟩
    · exact scaled?_neg down
    · exact scaled?_digits spells finite written
  obtain ⟨x, product⟩ := Option.isSome_iff_exists.mp some
  have text_eq : d.dataText = signText negative ++
      FloatStyle.data.layout (Shortest.digits .double false m q).1
        ((Shortest.digits .double false m q).1.length + (Shortest.digits .double false m q).2) := by
    unfold Double.dataText
    rw [value, Floating.text]
    · rfl
    · exact positive.ne'
  refine ⟨_, x, text_eq, ⟨negative, significand, exponent, x, product, rfl, ?_⟩, fun rest ends => ?_⟩
  · refine Double.ofQuotient_eq value positive (Nat.pow_pos (by decide)) ?_
    have quotient : ((significand * 10 ^ exponent.toNat : ℕ) / (10 ^ (-exponent).toNat : ℕ) : ℚ) =
        significand * 10 ^ exponent := by
      rw [zpow_eq_div]
      push_cast
      ring
    rw [quotient, read.value]
    exact written.near
  · rw [read.read negative rest ends, computed, product]
    rfl

/-- So is the text of a zero. -/
theorem read_zero (value : d.value = .finite negative 0 q) :
    ∃ text x, d.dataText = signText negative ++ text ∧ StandsFor (signed negative x) d ∧ ∀ rest, Ends rest →
      readUnsigned negative (text.toList ++ rest) = some (.float (signed negative x), rest) := by
  have down : (-1 : ℤ) < 0 := by decide
  obtain ⟨x, product⟩ := Option.isSome_iff_exists.mp (@scaled?_neg 0 _ down)
  refine ⟨"0.0", x, ?_, ⟨negative, 0, -1, x, product, rfl, ?_⟩, fun rest ends => ?_⟩
  · unfold Double.dataText
    rw [value, Floating.text]
  · rw [Nat.zero_mul]
    exact Double.ofQuotient_zero value _
  · have read : readUnsigned negative (['0'] ++ '.' :: (['0'] ++ rest)) = _ :=
      readUnsigned_point ⟨isDigit_zeros 1, .inl rfl⟩ (List.cons_ne_nil _ _) (isDigit_zeros 1) (by decide)
        ends.stops
    rw [finishFloat_ends ends, computed] at read
    exact read.trans (congrArg (Option.map _) (congrArg (Option.map _) product))

theorem exists_digit_of_readUnsigned {s : List Char} {r : Number × List Char}
    (read : readUnsigned negative s = some r) : ∃ c rest, s = c :: rest ∧ c.isDigit := by
  unfold readUnsigned at read
  split at read
  next rest => exact ⟨'0', rest, rfl, rfl⟩
  next c rest _ =>
    split_ifs at read with digit
    exact ⟨c, rest, rfl, digit⟩
  next => cases read

theorem read_of_isDigit {c : Char} (digit : c.isDigit) (s : List Char) :
    read (c :: s) = readUnsigned false (c :: s) := by
  unfold read
  split
  next sign =>
    obtain ⟨rfl, -⟩ := List.cons.inj sign
    exact absurd digit (by decide)
  next => rfl

/-- The text of a finite double is read as a decimal number that is rounded to it. -/
theorem read_dataText (value : d.value = .finite negative m q) : ∃ x, StandsFor x d ∧
    (∃ c rest, d.dataText.toList = c :: rest ∧ (c = '-' ∨ c.isDigit)) ∧
      ∀ rest, Ends rest → read (d.dataText.toList ++ rest) = some (.float x, rest) := by
  obtain ⟨text, x, text_eq, stands, read⟩ : ∃ text x, d.dataText = signText negative ++ text ∧
      StandsFor (signed negative x) d ∧ ∀ rest, Ends rest →
        readUnsigned negative (text.toList ++ rest) = some (.float (signed negative x), rest) := by
    rcases Nat.eq_zero_or_pos m with rfl | positive
    · exact read_zero value
    · exact read_digits value positive
  obtain ⟨c, others, first, digit⟩ := exists_digit_of_readUnsigned (read [] nofun)
  rw [List.append_nil] at first
  refine ⟨_, stands, ?_, fun rest ends => ?_⟩
  · cases negative with
    | false => exact ⟨c, others, by rw [text_eq]; exact first, .inr digit⟩
    | true => exact ⟨'-', text.toList, by rw [text_eq, String.toList_append]; rfl, .inl rfl⟩
  · rw [text_eq, String.toList_append, List.append_assoc]
    cases negative with
    | true => exact read rest ends
    | false =>
      rw [first] at read ⊢
      exact (read_of_isDigit digit _).trans (read rest ends)

end OrderedAtomics.Json.Number
