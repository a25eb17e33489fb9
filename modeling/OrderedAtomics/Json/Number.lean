import OrderedAtomics.Floating

/-! Numbers of a data file. Whole numbers of 64 bits are kept as they are. All others become
doubles: the digits up to 64 bits as a double, times or divided by the double nearest to a power of
ten, so two roundings on the whole. -/

namespace OrderedAtomics.Json

inductive Number where
  | natural (n : Nat)
  | negative (i : Int)
  | float (d : Double)
  deriving DecidableEq, Repr

/-- The number as a double. -/
def Number.toDouble : Number → Double
  | natural n => .ofNat n
  | negative i => .ofInt i
  | float d => d

namespace Number

/-- Significands stay below this. -/
abbrev wordLimit : Nat := Nat.pow 2 64

/-- The greatest power of ten that is a double. -/
abbrev greatestPower : Nat := 308

/-- An exponent with more than 31 bits is not computed with. -/
abbrev exponentLimit : Nat := Nat.pow 2 31

def digit (c : Char) : Nat := c.toNat - '0'.toNat

/-- The natural that digits spell. -/
def ofDigits (digits : List Char) : Nat := digits.foldl (fun n c => 10 * n + digit c) 0

/-- Takes digits for as long as the significand is a word: the significand, how many digits were
taken, and the text after them. -/
def takeDigits : Nat → Nat → List Char → Nat × Nat × List Char
  | n, taken, c :: rest =>
    if c.isDigit && 10 * n + digit c < wordLimit then takeDigits (10 * n + digit c) (taken + 1) rest
    else (n, taken, c :: rest)
  | n, taken, [] => (n, taken, [])

def power (n : Nat) : Double := .ofNat (Nat.pow 10 n)

/-- Division by a power of ten, in parts if the power is no double. -/
def divideByPower (d : Double) (e : Nat) : Double :=
  if d = .zero false then d
  else if e ≤ greatestPower then d.div (power e)
  else divideByPower (d.div (power greatestPower)) (e - greatestPower)
  termination_by e
  decreasing_by
    have : greatestPower = 308 := rfl
    omega

/-- A significand times a power of ten, unless that is too large. -/
def scaled? (significand : Nat) (exponent : Int) : Option Double :=
  let d := Double.ofNat significand
  if exponent < 0 then some (divideByPower d exponent.natAbs)
  else if significand = 0 then some d
  else if greatestPower < exponent.toNat then none
  else
    let product := d.mul (power exponent.toNat)
    if product = .infinity false then none else some product

def signed (negative : Bool) (d : Double) : Double :=
  if negative then d ^^^ Double.zero true else d

/-- The exponent part after its letter, if any. -/
def readExponent (negative : Bool) (significand : Nat) (exponent : Int) (s : List Char) :
    Option (Double × List Char) := do
  let (down, s) := match s with
    | '+' :: rest => (false, rest)
    | '-' :: rest => (true, rest)
    | rest => (false, rest)
  let digits := s.takeWhile Char.isDigit
  if digits.isEmpty then none
  else
    let rest := s.dropWhile Char.isDigit
    let e := ofDigits digits
    if exponentLimit ≤ e then
      if significand ≠ 0 && !down then none else some (signed negative (.zero false), rest)
    else
      let d ← scaled? significand (if down then exponent - e else exponent + e)
      return (signed negative d, rest)

/-- What may come after the digits of a number that is a double already. -/
def finishFloat (negative : Bool) (significand : Nat) (exponent : Int) (s : List Char) :
    Option (Double × List Char) :=
  match s with
  | 'e' :: rest | 'E' :: rest => readExponent negative significand exponent rest
  | _ => (scaled? significand exponent).map fun d => (signed negative d, s)

/-- The digits after the point, of which there is at least one. Those that no longer fit are
dropped. -/
def readFraction (negative : Bool) (significand : Nat) (exponent : Int) (s : List Char) :
    Option (Double × List Char) :=
  match s with
  | c :: _ =>
    if c.isDigit then
      let (significand, taken, rest) := takeDigits significand 0 s
      finishFloat negative significand (exponent - taken) (rest.dropWhile Char.isDigit)
    else none
  | [] => none

/-- A whole number without fraction and exponent. A negative zero is a double. -/
def whole (negative : Bool) (n : Nat) : Number :=
  if !negative then .natural n
  else if n = 0 || Nat.pow 2 63 < n then .float (signed true (.ofNat n))
  else .negative (-n)

/-- The text after the first digits of a number. -/
def readTail (negative : Bool) (significand : Nat) (s : List Char) : Option (Number × List Char) :=
  let dropped := (s.takeWhile Char.isDigit).length
  match s.dropWhile Char.isDigit with
  | '.' :: rest => (readFraction negative significand dropped rest).map fun r => (.float r.1, r.2)
  | 'e' :: rest | 'E' :: rest =>
    (readExponent negative significand dropped rest).map fun r => (.float r.1, r.2)
  | rest =>
    if dropped = 0 then some (whole negative significand, rest)
    else (scaled? significand dropped).map fun d => (.float (signed negative d), rest)

/-- A number without its sign. A zero is not followed by another digit. -/
def readUnsigned (negative : Bool) (s : List Char) : Option (Number × List Char) :=
  match s with
  | '0' :: rest =>
    match rest with
    | c :: _ => if c.isDigit then none else readTail negative 0 rest
    | [] => readTail negative 0 rest
  | c :: _ =>
    if c.isDigit then
      let (significand, _, rest) := takeDigits 0 0 s
      readTail negative significand rest
    else none
  | [] => none

def read : List Char → Option (Number × List Char)
  | '-' :: rest => readUnsigned true rest
  | s => readUnsigned false s

end Number

end OrderedAtomics.Json
