import OrderedAtomics.Floating

/-! The fewest decimal digits that read back as a given binary value. The values that round to
`m · 2 ^ q` are an interval, ends included if `m` is even; the first decimal grid with a point in it
wins, and of two points the one nearer to the value. -/

namespace OrderedAtomics.Shortest

/-- The reals that round to a value, as quotients by `den`. -/
structure Interval where
  low : Nat
  middle : Nat
  high : Nat
  den : Nat
  closed : Bool

/-- The interval of `m · 2 ^ q`. At a power of two the neighbour below is only half as far away as
the one above, unless the value has the least exponent of its format. -/
def interval (f : FloatFormat) (m : Nat) (q : Int) : Interval :=
  let narrow := m = Nat.pow 2 f.fractionBits && f.leastExponent < q
  let up := Nat.pow 2 (q - 2).toNat
  { low := (if narrow then 4 * m - 1 else 4 * m - 2) * up
    middle := 4 * m * up
    high := (4 * m + 2) * up
    den := Nat.pow 2 (2 - q).toNat
    closed := m % 2 = 0 }

/-- Whether `digits · 10 ^ k` rounds to the value. -/
def Interval.holds (i : Interval) (digits : Nat) (k : Int) : Bool :=
  let point := digits * Nat.pow 10 k.toNat * i.den
  let scale := Nat.pow 10 (-k).toNat
  if i.closed then i.low * scale ≤ point && point ≤ i.high * scale
  else i.low * scale < point && point < i.high * scale

/-- The exponent of the decimal grid on which a positive quotient has one digit. -/
def decimalExponent (num den : Nat) : Int :=
  if den ≤ num then (Nat.toDigits 10 (num / den)).length - 1
  else
    let k := (Nat.toDigits 10 (den / num)).length
    if den ≤ num * Nat.pow 10 (k - 1) then -(k - 1 : Nat) else -k

/-- The value in units of a grid, as a quotient. -/
def Interval.onGrid (i : Interval) (k : Int) : Nat × Nat :=
  (i.middle * Nat.pow 10 (-k).toNat, i.den * Nat.pow 10 k.toNat)

/-- The point of a grid nearest to the value. The flag says which of two points at the same distance
is taken: the upper one or the even one. -/
def Interval.nearest (i : Interval) (tieUp : Bool) (k : Int) : Nat :=
  let (num, den) := i.onGrid k
  if tieUp then (2 * num + den) / (2 * den) else roundDiv num den

/-- The point of a grid for the value, if one of the two next to it rounds to the value. -/
def Interval.point (i : Interval) (tieUp : Bool) (k : Int) : Option Nat :=
  let (num, den) := i.onGrid k
  let below := num / den
  match i.holds below k, i.holds (below + 1) k with
  | true, true => some (i.nearest tieUp k)
  | true, false => some below
  | false, true => some (below + 1)
  | false, false => none

/-- Looks through the grids from coarse to fine. -/
def search (i : Interval) (tieUp : Bool) : Nat → Int → Nat × Int
  | 0, k => (i.nearest tieUp k, k)
  | n + 1, k =>
    match i.point tieUp k with
    | some digits => (digits, k)
    | none => search i tieUp n (k - 1)

/-- Seventeen digits tell any two doubles apart. -/
abbrev enoughDigits : Nat := 17

/-- The digits of a positive value, the last one not zero, and the power of ten of the last one. -/
def digits (f : FloatFormat) (tieUp : Bool) (m : Nat) (q : Int) : List Char × Int :=
  let i := interval f m q
  let (n, k) := search i tieUp (enoughDigits - 1) (decimalExponent i.middle i.den)
  let reversed := (Nat.toDigits 10 n).reverse
  (((reversed.dropWhile (· = '0')).reverse), k + (reversed.takeWhile (· = '0')).length)

end OrderedAtomics.Shortest
