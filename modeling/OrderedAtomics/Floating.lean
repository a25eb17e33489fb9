/-! Binary floating-point formats: what a word stands for, and the nearest word to a quotient of
naturals. Arithmetic is exact on the values and rounded once. -/

namespace OrderedAtomics

/-- The quotient rounded to the nearest natural, a tie to the even one. -/
def roundDiv (num den : Nat) : Nat :=
  let q := num / den
  let twice := 2 * (num % den)
  if twice < den then q
  else if den < twice then q + 1
  else q + q % 2

/-- The widths of the fields after the sign bit. -/
structure FloatFormat where
  exponentBits : Nat
  fractionBits : Nat
  deriving DecidableEq, Repr

/-- What a floating-point word stands for. A finite value is `± mantissa · 2 ^ exponent`. -/
inductive Floating where
  | finite (negative : Bool) (mantissa : Nat) (exponent : Int)
  | infinite (negative : Bool)
  | nan
  deriving DecidableEq, Repr

namespace FloatFormat

def single : FloatFormat := ⟨8, 23⟩

def double : FloatFormat := ⟨11, 52⟩

def width (f : FloatFormat) : Nat := 1 + f.exponentBits + f.fractionBits

/-- The exponent of the least positive value, the unit of the smallest numbers. -/
def leastExponent (f : FloatFormat) : Int := 2 - Int.pow 2 (f.exponentBits - 1) - f.fractionBits

/-- The word of positive infinity, the first one above all finite words. -/
def infinityBits (f : FloatFormat) : Nat :=
  (Nat.pow 2 f.exponentBits - 1) * Nat.pow 2 f.fractionBits

def signBit (f : FloatFormat) (negative : Bool) : Nat :=
  if negative then Nat.pow 2 (f.exponentBits + f.fractionBits) else 0

/-- The value of a word. -/
def decode (f : FloatFormat) (bits : Nat) : Floating :=
  let unit := Nat.pow 2 f.fractionBits
  let negative := bits / Nat.pow 2 (f.exponentBits + f.fractionBits) % 2 == 1
  let exponent := bits / unit % Nat.pow 2 f.exponentBits
  let fraction := bits % unit
  if exponent = Nat.pow 2 f.exponentBits - 1 then
    if fraction = 0 then .infinite negative else .nan
  else if exponent = 0 then .finite negative fraction f.leastExponent
  else .finite negative (fraction + unit) (f.leastExponent + exponent - 1)

/-- Equality of words as numbers: both zeros are equal, and what is not a number equals nothing. -/
def equal (f : FloatFormat) (x y : Nat) : Bool :=
  match f.decode x, f.decode y with
  | .nan, _ | _, .nan => false
  | .finite _ 0 _, .finite _ 0 _ => true
  | x, y => decide (x = y)

/-- The exponent of the leading binary digit of a quotient of positive naturals. -/
def leadingExponent (num den : Nat) : Int :=
  let e : Int := (Nat.log2 num : Int) - Nat.log2 den
  if den * Nat.pow 2 e.toNat ≤ num * Nat.pow 2 (-e).toNat then e else e - 1

/-- The magnitude nearest to a quotient, a tie to the even one, and infinity past the greatest. The
mantissa runs over into the exponent field when it is rounded up to a power of two. -/
def nearestMagnitude (f : FloatFormat) (num den : Nat) : Nat :=
  if num = 0 then 0
  else
    let exponent := max f.leastExponent (leadingExponent num den - f.fractionBits)
    let mantissa := roundDiv (num * Nat.pow 2 (-exponent).toNat) (den * Nat.pow 2 exponent.toNat)
    min f.infinityBits ((exponent - f.leastExponent).toNat * Nat.pow 2 f.fractionBits + mantissa)

/-- The word nearest to a signed quotient. -/
def nearest (f : FloatFormat) (negative : Bool) (num den : Nat) : Nat :=
  f.signBit negative + f.nearestMagnitude num den

end FloatFormat

/-- The word of a double-precision value. -/
abbrev Double := BitVec 64

namespace Double

def value (d : Double) : Floating := FloatFormat.double.decode d.toNat

/-- The nearest double to `± num / den`. -/
def ofQuotient (negative : Bool) (num den : Nat) : Double :=
  BitVec.ofNat 64 (FloatFormat.double.nearest negative num den)

def ofNat (n : Nat) : Double := ofQuotient false n 1

def ofInt (i : Int) : Double := ofQuotient (i < 0) i.natAbs 1

def infinity (negative : Bool) : Double :=
  BitVec.ofNat 64
    (FloatFormat.double.signBit negative + FloatFormat.double.infinityBits)

/-- The word that arithmetic answers where there is no number. -/
def notANumber : Double := infinity true + BitVec.ofNat 64 (Nat.pow 2 51)

def zero (negative : Bool) : Double := ofQuotient negative 0 1

def mul (x y : Double) : Double :=
  match x.value, y.value with
  | .nan, _ | _, .nan => notANumber
  | .infinite s, .infinite t => infinity (s ^^ t)
  | .infinite s, .finite t m _ | .finite t m _, .infinite s =>
    if m = 0 then notANumber else infinity (s ^^ t)
  | .finite s m p, .finite t n q =>
    ofQuotient (s ^^ t) (m * n * Nat.pow 2 (p + q).toNat) (Nat.pow 2 (-(p + q)).toNat)

def div (x y : Double) : Double :=
  match x.value, y.value with
  | .nan, _ | _, .nan => notANumber
  | .infinite _, .infinite _ => notANumber
  | .infinite s, .finite t .. => infinity (s ^^ t)
  | .finite s .., .infinite t => zero (s ^^ t)
  | .finite s m p, .finite t n q =>
    if n = 0 then if m = 0 then notANumber else infinity (s ^^ t)
    else ofQuotient (s ^^ t) (m * Nat.pow 2 (p - q).toNat) (n * Nat.pow 2 (q - p).toNat)

/-- A finite value in units of `2 ^ unit`, which is at most its own exponent. -/
def scaled (unit : Int) (negative : Bool) (mantissa : Nat) (exponent : Int) : Int :=
  let n : Int := (mantissa * Nat.pow 2 (exponent - unit).toNat : Nat)
  if negative then -n else n

/-- The order of numbers; nothing is less than a word that is not a number, or greater. -/
def less (x y : Double) : Bool :=
  match x.value, y.value with
  | .nan, _ | _, .nan => false
  | .infinite s, .infinite t => s && !t
  | .infinite s, .finite .. => s
  | .finite .., .infinite t => !t
  | .finite s m p, .finite t n q => scaled (min p q) s m p < scaled (min p q) t n q

end Double

end OrderedAtomics
