import OrderedAtomics.Floating

/-! Reading decimal texts as doubles, rounded once from the exact value. -/

namespace OrderedAtomics.Double

/-- The digits at the front of a text as a natural, how many there are, and the text after them. -/
def takeDigits (s : List Char) : Nat × Nat × List Char :=
  let digits := s.takeWhile Char.isDigit
  (digits.foldl (fun n c => 10 * n + (c.toNat - '0'.toNat)) 0, digits.length,
    s.dropWhile Char.isDigit)

/-- A sign, if there is one. -/
def takeSign : List Char → Bool × List Char
  | '-' :: rest => (true, rest)
  | '+' :: rest => (false, rest)
  | rest => (false, rest)

/-- The exponent at the end of a number, zero if there is none. -/
def readExponent? : List Char → Option Int
  | [] => some 0
  | c :: rest =>
    if c = 'e' || c = 'E' then
      let (down, rest) := takeSign rest
      let (n, count, rest) := takeDigits rest
      if count = 0 || !rest.isEmpty then none else some (if down then -n else n)
    else none

/-- Powers of ten beyond this many decimal places lie outside the doubles. -/
abbrev decimalRange : Int := 400

/-- The double nearest to `± digits · 10 ^ exponent`, where the digits are `count` many. -/
def ofDecimal (negative : Bool) (digits count : Nat) (exponent : Int) : Double :=
  if digits = 0 || exponent + count < -decimalRange then zero negative
  else if decimalRange < exponent + (Nat.toDigits 10 digits).length then infinity negative
  else ofQuotient negative (digits * Nat.pow 10 exponent.toNat) (Nat.pow 10 (-exponent).toNat)

def readUnsigned? (negative : Bool) (s : List Char) : Option Double :=
  let (whole, count, rest) := takeDigits s
  match rest with
  | '.' :: rest =>
    let (part, places, rest) := takeDigits rest
    if count + places = 0 then none
    else (readExponent? rest).map fun e =>
      ofDecimal negative (whole * Nat.pow 10 places + part) (count + places) (e - places)
  | rest =>
    if count = 0 then none
    else (readExponent? rest).map fun e => ofDecimal negative whole count e

/-- The double of a decimal text. The names of infinity and of what is not a number are read in
upper and lower case. -/
def read? (text : String) : Option Double :=
  let (negative, rest) := takeSign text.toList
  let name := String.ofList (rest.map Char.toLower)
  if name = "inf" || name = "infinity" then some (infinity negative)
  else if name = "nan" then some notANumber
  else readUnsigned? negative rest

end OrderedAtomics.Double
